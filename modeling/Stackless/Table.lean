/-!
# Tables: finite maps from names, kept in name order

Modules, symbols, functions and local slots are all looked up by name and
all walked in one fixed order: ascending by name, compared character by
character.  A **table** is the list of its entries in that order, with the
proof that the names ascend strictly; so a name has at most one entry and
the order of a walk never depends on how the table was built.

The facts about insertion:

* `find?_insert_self`, `find?_insert_of_ne` — inserting under a name sets
  that entry and leaves every other one alone.
-/

namespace Stackless

/-- A finite map from names to values, as the list of its entries in
strictly ascending order of names. -/
structure Table (α : Type) where
  entries : List (String × α)
  ascending : entries.Pairwise (fun a b => a.1 < b.1)

namespace Table

variable {α β : Type}

/-- The table without entries. -/
def empty : Table α := ⟨[], List.Pairwise.nil⟩

instance : EmptyCollection (Table α) := ⟨empty⟩

instance : Inhabited (Table α) := ⟨empty⟩

/-- Puts an entry into a list of entries in name order; an entry of the
same name is replaced. -/
def place (name : String) (value : α) : List (String × α) → List (String × α)
  | [] => [(name, value)]
  | (key, old) :: rest =>
    if name < key then (name, value) :: (key, old) :: rest
    else if name = key then (name, value) :: rest
    else (key, old) :: place name value rest

/-- An entry after a placement is the new one or an old one. -/
theorem mem_place {name : String} {value : α} {e : String × α} :
    ∀ {entries : List (String × α)}, e ∈ place name value entries → e = (name, value) ∨ e ∈ entries
  | [], h => by simpa [place] using h
  | (key, old) :: rest, h => by
    rw [place] at h
    split at h
    · simpa using h
    · split at h
      · rcases List.mem_cons.mp h with h | h
        · exact .inl h
        · exact .inr (List.mem_cons_of_mem _ h)
      · rcases List.mem_cons.mp h with h | h
        · exact .inr (h ▸ List.mem_cons_self)
        · rcases mem_place h with h | h
          · exact .inl h
          · exact .inr (List.mem_cons_of_mem _ h)

/-- Of two names that are different and not in ascending order, the second
comes first. -/
theorem lt_of_not_lt_of_ne {a b : String} (h : ¬a < b) (hne : a ≠ b) : b < a := by
  apply String.not_le.mp
  intro hab
  exact hne (String.le_antisymm hab (String.not_lt.mp h))

/-- Placement keeps the names ascending. -/
theorem ascending_place (name : String) (value : α) :
    ∀ {entries : List (String × α)}, entries.Pairwise (fun a b => a.1 < b.1) →
      (place name value entries).Pairwise (fun a b => a.1 < b.1)
  | [], _ => by simp [place]
  | (key, old) :: rest, h => by
    have hrest := (List.pairwise_cons.mp h).2
    have hkey := (List.pairwise_cons.mp h).1
    rw [place]
    split
    · rename_i hlt
      refine List.pairwise_cons.mpr ⟨fun e he => ?_, h⟩
      rcases List.mem_cons.mp he with he | he
      · exact he ▸ hlt
      · exact String.lt_trans hlt (hkey e he)
    · split
      · rename_i heq
        subst heq
        exact List.pairwise_cons.mpr ⟨hkey, hrest⟩
      · rename_i hlt hne
        refine List.pairwise_cons.mpr ⟨fun e he => ?_, ascending_place name value hrest⟩
        rcases mem_place he with he | he
        · exact he ▸ lt_of_not_lt_of_ne hlt hne
        · exact hkey e he

/-- The table with `value` under `name`; an entry already there is replaced. -/
def insert (t : Table α) (name : String) (value : α) : Table α :=
  ⟨place name value t.entries, ascending_place name value t.ascending⟩

/-- The table without the entry of a name. -/
def erase (t : Table α) (name : String) : Table α :=
  ⟨t.entries.filter (fun e => e.1 ≠ name), t.ascending.filter _⟩

/-- The value under a name, if there is one. -/
def find? (t : Table α) (name : String) : Option α :=
  t.entries.lookup name

/-- Whether a name has an entry. -/
def contains (t : Table α) (name : String) : Bool :=
  (t.find? name).isSome

/-- The names, ascending. -/
def keys (t : Table α) : List String :=
  t.entries.map (·.1)

/-- The values, in the order of their names. -/
def values (t : Table α) : List α :=
  t.entries.map (·.2)

/-- Inserts the given entries from first to last: of two entries with one
name the later stays. -/
def ofList (entries : List (String × α)) : Table α :=
  entries.foldl (fun t e => t.insert e.1 e.2) empty

/-- Replaces every value, keeping the names. -/
def map (f : α → β) (t : Table α) : Table β :=
  ⟨t.entries.map (fun e => (e.1, f e.2)), t.ascending.map _ (fun _ _ h => h)⟩

/-- Replaces every value by the outcome of a step, in name order. -/
def mapM {m : Type → Type} [Monad m] (f : α → m β) (t : Table α) : m (Table β) :=
  t.entries.foldlM (fun done e => do
    let value ← f e.2
    return done.insert e.1 value) empty

/-- Looking up the name that was just inserted. -/
@[simp]
theorem find?_insert_self (t : Table α) (name : String) (value : α) :
    (t.insert name value).find? name = some value := by
  obtain ⟨entries, _⟩ := t
  simp only [insert, find?]
  induction entries with
  | nil => simp [place]
  | cons e rest ih =>
    obtain ⟨key, old⟩ := e
    rw [place]
    split
    · simp
    · split
      · simp
      · rename_i hne
        have hbeq : (name == key) = false := by simpa using hne
        have hasc := (List.pairwise_cons.mp (by assumption)).2
        simp [List.lookup_cons, hbeq, ih hasc]

/-- An insertion leaves every other name alone. -/
theorem find?_insert_of_ne (t : Table α) {name other : String} (value : α) (h : other ≠ name) :
    (t.insert name value).find? other = t.find? other := by
  obtain ⟨entries, _⟩ := t
  have hbeq : (other == name) = false := by simpa using h
  simp only [insert, find?]
  induction entries with
  | nil => simp [place, List.lookup_cons, hbeq]
  | cons e rest ih =>
    obtain ⟨key, old⟩ := e
    have hasc := (List.pairwise_cons.mp (by assumption)).2
    rw [place]
    split
    · simp [List.lookup_cons, hbeq]
    · split
      · rename_i heq
        subst heq
        simp [List.lookup_cons, hbeq]
      · simp [List.lookup_cons, ih hasc]

end Table

end Stackless
