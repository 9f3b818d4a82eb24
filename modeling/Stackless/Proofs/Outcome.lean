import Stackless.Table
import Stackless.Diagnostic.Error

/-!
# Phases that succeed, and the tables they make

Every phase is a chain of steps that may fail.  The lemmas of this file take a
chain that succeeded apart again:

* `bind_eq_ok` — a chain succeeds exactly when its first step does and the rest
  does with that step's value;
* `mapM_eq_ok` — a step over a list succeeds exactly when it does at every
  place, with as many outcomes as there were elements;
* `Table.find?_mapM` — a step over a table keeps the names and replaces the
  values.
-/

namespace Stackless

section Chains

variable {ε α β : Type}

/-- A chain succeeds exactly when its first step does and the rest does with
that step's value. -/
theorem bind_eq_ok {x : Except ε α} {f : α → Except ε β} {b : β} :
    (x >>= f) = .ok b ↔ ∃ a, x = .ok a ∧ f a = .ok b := by
  cases x with
  | error e =>
      constructor
      · intro h
        cases h
      · rintro ⟨a, ha, _⟩
        cases ha
  | ok a =>
      constructor
      · intro h
        exact ⟨a, rfl, h⟩
      · rintro ⟨a', ha, hb⟩
        cases ha
        exact hb

theorem toOption_eq_some {x : Except ε α} {a : α} : x.toOption = some a ↔ x = .ok a := by
  cases x with
  | error e => simp [Except.toOption]
  | ok a' => simp [Except.toOption]

/-- A chain fails exactly when its first step does, or the rest does with that
step's value. -/
theorem bind_eq_error {x : Except ε α} {f : α → Except ε β} {e : ε} :
    (x >>= f) = .error e ↔ x = .error e ∨ ∃ a, x = .ok a ∧ f a = .error e := by
  cases x with
  | error e' =>
      constructor
      · intro h
        cases h
        exact .inl rfl
      · rintro (h | ⟨a, ha, _⟩)
        · cases h
          rfl
        · cases ha
  | ok a =>
      constructor
      · intro h
        exact .inr ⟨a, rfl, h⟩
      · rintro (h | ⟨a', ha, hb⟩)
        · cases h
        · cases ha
          exact hb

/-- A value that is returned is the outcome. -/
theorem pure_eq_ok {a b : α} : (pure a : Except ε α) = .ok b ↔ a = b := by
  constructor
  · intro h
    cases h
    rfl
  · rintro rfl
    rfl

/-- Renaming errors keeps what succeeds. -/
theorem mapError_eq_ok {γ : Type} {x : Except ε α} {f : ε → γ} {a : α} :
    x.mapError f = .ok a ↔ x = .ok a := by
  cases x with
  | error e =>
      constructor
      · intro h
        cases h
      · intro h
        cases h
  | ok b =>
      constructor
      · intro h
        cases h
        rfl
      · intro h
        cases h
        rfl

/-- The errors of a chain are renamed step by step. -/
theorem mapError_bind {γ : Type} {x : Except ε α} {f : α → Except ε β} {rename : ε → γ} :
    (x >>= f).mapError rename = x.mapError rename >>= fun a => (f a).mapError rename := by
  cases x with
  | error e => rfl
  | ok a => rfl

/-- A phase that only reports errors succeeds with what it succeeded with. -/
theorem orFail_eq_ok {x : Except (Located CompileError) α} {a : α} :
    orFail x = .ok a ↔ x = .ok a :=
  mapError_eq_ok

theorem checkWord_eq_ok {n m : Nat} : checkWord n = .ok m ↔ n < wordLimit ∧ n = m := by
  by_cases h : n < wordLimit
  · simp [checkWord, h]
  · simp [checkWord, h]

/-- A difference that succeeded is the difference, and it did not underflow. -/
theorem checkedSub_eq_ok {a b d : Nat} : checkedSub a b = .ok d ↔ b ≤ a ∧ a - b = d := by
  by_cases h : b ≤ a
  · simp [checkedSub, h]
  · simp [checkedSub, h]

/-- A step over a list succeeds exactly when it does at every place, and the outcomes stand in the
order of the list. -/
theorem mapM_eq_ok {f : α → Except ε β} {xs : List α} {ys : List β} :
    xs.mapM f = .ok ys ↔
      ys.length = xs.length ∧
        ∀ (i : Nat) (x : α) (y : β), xs[i]? = some x → ys[i]? = some y → f x = .ok y := by
  induction xs generalizing ys with
  | nil =>
      rw [List.mapM_nil, pure_eq_ok]
      constructor
      · rintro rfl
        exact ⟨rfl, by simp⟩
      · rintro ⟨hlen, _⟩
        exact (List.eq_nil_of_length_eq_zero hlen).symm
  | cons x xs ih =>
      rw [List.mapM_cons, bind_eq_ok]
      constructor
      · rintro ⟨y, hy, hrest⟩
        obtain ⟨ys', hys', hcons⟩ := bind_eq_ok.mp hrest
        cases hcons
        obtain ⟨hlen, hall⟩ := ih.mp hys'
        refine ⟨by simp [hlen], ?_⟩
        intro i a b ha hb
        cases i with
        | zero =>
            simp only [List.getElem?_cons_zero, Option.some.injEq] at ha hb
            rw [← ha, ← hb]
            exact hy
        | succ i => exact hall i a b (by simpa using ha) (by simpa using hb)
      · rintro ⟨hlen, hall⟩
        cases ys with
        | nil => simp at hlen
        | cons y ys =>
            refine ⟨y, hall 0 x y rfl rfl, bind_eq_ok.mpr ⟨ys, ih.mpr ⟨by simpa using hlen, ?_⟩, rfl⟩⟩
            intro i a b ha hb
            exact hall (i + 1) a b (by simpa using ha) (by simpa using hb)

/-- Every outcome of a step over a list comes from the element at its place. -/
theorem exists_of_mapM_getElem? {f : α → Except ε β} {xs : List α} {ys : List β}
    (h : xs.mapM f = .ok ys) {i : Nat} {y : β} (hy : ys[i]? = some y) :
    ∃ x, xs[i]? = some x ∧ f x = .ok y := by
  obtain ⟨hlen, hall⟩ := mapM_eq_ok.mp h
  have hi : i < xs.length := by
    rw [← hlen]
    exact (List.getElem?_eq_some_iff.mp hy).1
  exact ⟨xs[i], List.getElem?_eq_getElem hi, hall i _ y (List.getElem?_eq_getElem hi) hy⟩

/-- A step over a list succeeds if it does at every element. -/
theorem exists_mapM_ok {f : α → Except ε β} :
    ∀ {xs : List α}, (∀ x ∈ xs, ∃ y, f x = .ok y) → ∃ ys, xs.mapM f = .ok ys
  | [], _ => ⟨[], rfl⟩
  | x :: xs, h => by
    obtain ⟨y, hy⟩ := h x List.mem_cons_self
    obtain ⟨ys, hys⟩ := exists_mapM_ok fun x hx => h x (List.mem_cons_of_mem _ hx)
    exact ⟨y :: ys, by simp [List.mapM_cons, hy, hys]; rfl⟩

/-- **What a step keeps, a fold keeps.** -/
theorem foldlM_keeps {f : β → α → Except ε β} (Inv : β → Prop) :
    ∀ {xs : List α} {b out : β}, (∀ b, ∀ a ∈ xs, ∀ b', Inv b → f b a = .ok b' → Inv b') →
      Inv b → xs.foldlM f b = .ok out → Inv out
  | [], _, _, _, hb, h => by
    cases h
    exact hb
  | x :: xs, b, out, hstep, hb, h => by
    rw [List.foldlM_cons] at h
    obtain ⟨next, hnext, hrest⟩ := bind_eq_ok.mp h
    exact foldlM_keeps Inv (fun b a ha => hstep b a (List.mem_cons_of_mem _ ha))
      (hstep b x List.mem_cons_self next hb hnext) hrest

/-- Steps over a list that differ in the errors differ in the error. -/
theorem mapM_mapError {γ : Type} {rename : ε → γ} {f : α → Except ε β} {g : α → Except γ β} :
    ∀ {xs : List α}, (∀ x ∈ xs, g x = (f x).mapError rename) →
      xs.mapM g = (xs.mapM f).mapError rename
  | [], _ => rfl
  | x :: xs, h => by
    have hrest := mapM_mapError fun x hx => h x (List.mem_cons_of_mem _ hx)
    rw [List.mapM_cons, List.mapM_cons, h x List.mem_cons_self, hrest]
    cases f x with
    | error e => rfl
    | ok y =>
        cases xs.mapM f with
        | error e => rfl
        | ok ys => rfl

end Chains

namespace Table

variable {α β : Type}

/-- What is found after an insertion. -/
theorem find?_insert (t : Table α) (name other : String) (value : α) :
    (t.insert name value).find? other = if other = name then some value else t.find? other := by
  by_cases h : other = name
  · rw [if_pos h, h]
    exact find?_insert_self t name value
  · rw [if_neg h]
    exact find?_insert_of_ne t value h

@[simp]
theorem find?_empty (name : String) : (empty : Table α).find? name = none := rfl

/-- The entries of a table are what is found under their names. -/
theorem find?_eq_some {t : Table α} {name : String} {a : α} :
    t.find? name = some a ↔ (name, a) ∈ t.entries := by
  obtain ⟨entries, ascending⟩ := t
  unfold find?
  dsimp only
  induction entries with
  | nil => simp
  | cons e rest ih =>
      obtain ⟨hkey, ascending⟩ := List.pairwise_cons.mp ascending
      rw [show e = (e.1, e.2) from rfl, List.lookup_cons, List.mem_cons]
      by_cases heq : name = e.1
      · subst heq
        rw [beq_self_eq_true]
        constructor
        · intro h
          cases h
          exact .inl rfl
        · rintro (h | h)
          · exact congrArg some (congrArg Prod.snd h).symm
          · exact absurd (hkey _ h) (String.lt_irrefl _)
      · rw [beq_false_of_ne heq, ih ascending]
        constructor
        · exact .inr
        · rintro (h | h)
          · exact absurd (congrArg Prod.fst h) heq
          · exact h

/-- A name that comes before all names of a list is not looked up in it. -/
theorem lookup_eq_none_of_lt {name : String} :
    ∀ {entries : List (String × α)}, (∀ e ∈ entries, name < e.1) → entries.lookup name = none
  | [], _ => rfl
  | (key, value) :: rest, h => by
    have hne : name ≠ key := by
      rintro rfl
      exact String.lt_irrefl _ (h (name, value) List.mem_cons_self)
    have hbeq : (name == key) = false := by simpa using hne
    rw [List.lookup_cons, hbeq]
    exact lookup_eq_none_of_lt fun e he => h e (List.mem_cons_of_mem _ he)

/-- What a step over entries in name order leaves under a name: the outcome at
the entry of that name, or what was there before. -/
theorem find?_foldlM_insert {ε : Type} {f : α → Except ε β} (name : String) :
    ∀ {entries : List (String × α)} {done result : Table β},
      entries.Pairwise (fun a b => a.1 < b.1) →
      entries.foldlM (fun done e => do
        let value ← f e.2
        return done.insert e.1 value) done = .ok result →
      match entries.lookup name with
      | some a => ∃ b, f a = .ok b ∧ result.find? name = some b
      | none => result.find? name = done.find? name
  | [], done, result, _, h => by
    cases h
    rfl
  | (key, value) :: rest, done, result, hasc, h => by
    rw [List.foldlM_cons, bind_eq_ok] at h
    obtain ⟨next, hstep, hrest⟩ := h
    obtain ⟨b, hb, hnext⟩ := bind_eq_ok.mp hstep
    cases hnext
    obtain ⟨hkey, hasc'⟩ := List.pairwise_cons.mp hasc
    have ih := find?_foldlM_insert name hasc' hrest
    by_cases hname : name = key
    · subst hname
      rw [lookup_eq_none_of_lt fun e he => hkey e he] at ih
      rw [List.lookup_cons_self]
      exact ⟨b, hb, ih.trans (find?_insert_self done name b)⟩
    · have hbeq : (name == key) = false := by simpa using hname
      rw [List.lookup_cons, hbeq]
      cases hl : rest.lookup name with
      | some a =>
          rw [hl] at ih
          exact ih
      | none =>
          rw [hl] at ih
          exact ih.trans (find?_insert_of_ne done b hname)

/-- A step over a table that succeeded has its outcome under every name of the
table. -/
theorem find?_mapM {ε : Type} {f : α → Except ε β} {t : Table α} {u : Table β}
    (h : t.mapM f = .ok u) {name : String} {a : α} (ha : t.find? name = some a) :
    ∃ b, f a = .ok b ∧ u.find? name = some b := by
  have hfold := find?_foldlM_insert name t.ascending h
  rw [show t.entries.lookup name = some a from ha] at hfold
  exact hfold

/-- A step over a table adds no names. -/
theorem find?_mapM_rev {ε : Type} {f : α → Except ε β} {t : Table α} {u : Table β}
    (h : t.mapM f = .ok u) {name : String} {b : β} (hb : u.find? name = some b) :
    ∃ a, t.find? name = some a ∧ f a = .ok b := by
  cases ha : t.find? name with
  | some a =>
      obtain ⟨b', hf, hb'⟩ := find?_mapM h ha
      rw [hb] at hb'
      cases hb'
      exact ⟨a, rfl, hf⟩
  | none =>
      have hfold := find?_foldlM_insert name t.ascending h
      rw [show t.entries.lookup name = none from ha] at hfold
      rw [hb] at hfold
      cases hfold

/-- A step over a table succeeds if it does at every value. -/
theorem exists_mapM {ε α β : Type} {f : α → Except ε β} {t : Table α}
    (h : ∀ name a, t.find? name = some a → ∃ b, f a = .ok b) : ∃ u, t.mapM f = .ok u := by
  have hfold : ∀ (entries : List (String × α)) (done : Table β),
      (∀ e ∈ entries, ∃ b, f e.2 = .ok b) →
      ∃ u, entries.foldlM (fun done e => do
        let value ← f e.2
        return done.insert e.1 value) done = .ok u := by
    intro entries
    induction entries with
    | nil => exact fun done _ => ⟨done, rfl⟩
    | cons e rest ih =>
        intro done hall
        obtain ⟨b, hb⟩ := hall e List.mem_cons_self
        obtain ⟨u, hu⟩ := ih (done.insert e.1 b) fun e he => hall e (List.mem_cons_of_mem _ he)
        exact ⟨u, bind_eq_ok.mpr ⟨_, bind_eq_ok.mpr ⟨b, hb, rfl⟩, hu⟩⟩
  exact hfold t.entries empty fun e he => h e.1 e.2 (find?_eq_some.mpr he)

end Table

end Stackless
