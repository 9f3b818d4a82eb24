import Stackless.Proofs.WindowTightness

/-!
# The address of each global

A label is made from the name of a module and the name of a symbol, so two globals can have
one label, and then the address under it is that of the one that was placed last.  If the
labels are **apart**, the address under the label of a global is the one that this global was
given:

* `Stages.table_address` — an array of constants stands behind those before it, in name order;
* `Stages.variable_address` — a variable stands where the cursors were when it was placed, or at
  its fixed address.
-/

namespace Stackless

open Model (Symbol)

/-- Each symbol of each module has a label of its own. Otherwise two modules may come to the same
label, since names may hold dots. -/
def Model.Program.LabelsApart (model : Model.Program) : Prop :=
  ((Storage.globals model).map Prod.fst).Nodup

instance (model : Model.Program) : Decidable model.LabelsApart :=
  inferInstanceAs (Decidable (List.Nodup _))

namespace Storage

section Constants

/-- How many words symbols declare, as a number without bounds; the allocation counts them in a word
and may overflow. -/
def declared (gs : List (String × Symbol)) : Nat :=
  (gs.map fun g => g.2.count.toNat).sum

/-- The arrays of constants of a program, in the order in which they are placed. -/
def tables (model : Model.Program) : List (String × Symbol) :=
  (globals model).filter fun g => isConstantArray g.2

/-- Constants placed one after another. -/
def placeTables (start : Constants) (gs : List (String × Symbol)) : Except Failure Constants :=
  gs.foldlM (fun c g => c.place g.1 g.2) start

/-- An array of constants is placed where those before it end. -/
theorem place_table {c d : Constants} {label : String} {symbol : Symbol}
    (h : c.place label symbol = .ok d) :
    d = { addresses := c.addresses.insert label c.used, used := c.used + symbol.count.toNat } := by
  obtain ⟨used, hused, h⟩ := bind_eq_ok.mp h
  cases h
  rw [← (checkWord_eq_ok.mp hused).2]

/-- Arrays of constants take the words that they declare. -/
theorem placeTables_used {gs : List (String × Symbol)} {start c : Constants}
    (h : placeTables start gs = .ok c) : c.used = start.used + declared gs := by
  induction gs generalizing start with
  | nil =>
      cases h
      rfl
  | cons g rest ih =>
      obtain ⟨next, hnext, hrest⟩ := bind_eq_ok.mp h
      rw [ih hrest, place_table hnext, declared, declared, List.map_cons, List.sum_cons,
        Nat.add_assoc]

/-- A label that no array has keeps its address. -/
theorem find?_placeTables_of_not {gs : List (String × Symbol)} {start c : Constants}
    (h : placeTables start gs = .ok c) {label : String} (hlabel : label ∉ gs.map Prod.fst) :
    c.addresses.find? label = start.addresses.find? label := by
  induction gs generalizing start with
  | nil =>
      cases h
      rfl
  | cons g rest ih =>
      obtain ⟨next, hnext, hrest⟩ := bind_eq_ok.mp h
      rw [List.map_cons, List.mem_cons, not_or] at hlabel
      rw [ih hrest hlabel.2, place_table hnext]
      exact Table.find?_insert_of_ne _ _ hlabel.1

/-- **The address of an array of constants**, if no later one has its label. -/
theorem find?_placeTables {before after : List (String × Symbol)} {g : String × Symbol}
    {start c : Constants} (h : placeTables start (before ++ g :: after) = .ok c)
    (hlast : g.1 ∉ after.map Prod.fst) :
    c.addresses.find? g.1 = some (start.used + declared before) := by
  rw [placeTables, List.foldlM_append] at h
  obtain ⟨mid, hmid, h⟩ := bind_eq_ok.mp h
  obtain ⟨next, hnext, hafter⟩ := bind_eq_ok.mp h
  rw [find?_placeTables_of_not hafter hlast, place_table hnext, placeTables_used hmid]
  exact Table.find?_insert_self ..

/-- Constants that were placed were placed one after another. -/
theorem placeTables_of_placeConstants {model : Model.Program} {constants : Constants}
    (h : placeConstants model = .ok constants) :
    placeTables {} (tables model) = .ok constants := by
  obtain ⟨c, hc, h⟩ := bind_eq_ok.mp h
  dsimp only at h
  split at h
  · cases h
    exact hc
  · cases h

end Constants

/-- **The address of a variable**, if no later one has its label. -/
theorem find?_placeAll {before after : List (String × Symbol)} {g : String × Symbol}
    {start c : Cursors} (h : placeAll start (before ++ g :: after) = .ok c)
    (hstorage : g.2.storage ≠ .rom) (hlast : g.1 ∉ after.map Prod.fst) :
    ∃ mid, placeAll start before = .ok mid ∧ c.addresses.find? g.1 = some (mid.given g.2) := by
  rw [placeAll, List.foldlM_append] at h
  obtain ⟨mid, hmid, h⟩ := bind_eq_ok.mp h
  obtain ⟨next, hnext, hafter⟩ := bind_eq_ok.mp h
  refine ⟨mid, hmid, ?_⟩
  rw [find?_placeAll_of_not hafter, place_addresses hnext, if_neg hstorage]
  · exact Table.find?_insert_self ..
  · intro g' hg' heq
    exact absurd (List.mem_map.mpr ⟨g', hg', heq⟩) hlast

section Labels

variable {model : Model.Program} (h : model.LabelsApart)
include h

theorem eq_of_label {g g' : String × Symbol} (hg : g ∈ globals model) (hg' : g' ∈ globals model)
    (heq : g.1 = g'.1) : g = g' :=
  List.inj_on_of_nodup_map h hg hg' heq

/-- No label comes twice among the variables that are placed. -/
theorem nodup_placed (forest : Calls.Forest) : ((placedGlobals model forest).map Prod.fst).Nodup :=
  (((placedGlobals_perm model forest).map Prod.fst).nodup_iff).mpr h

/-- No label comes twice among the arrays of constants. -/
theorem nodup_tables : ((tables model).map Prod.fst).Nodup :=
  h.sublist (List.filter_sublist.map Prod.fst)

end Labels

/-- Behind a place in a row of distinct labels its label does not come again. -/
theorem not_mem_behind {before after : List (String × Symbol)} {g : String × Symbol}
    (h : ((before ++ g :: after).map Prod.fst).Nodup) : g.1 ∉ after.map Prod.fst := by
  rw [List.map_append, List.map_cons] at h
  exact (List.nodup_cons.mp (List.nodup_append.mp h).2.1).1

end Storage

namespace Stages

open Storage (tables declared placedGlobals placeAll)

variable {model : Model.Program} {c : Compilation} (s : Stages model c)
include s

/-- The arrays of constants take the words that they declare. -/
theorem constants_eq : c.layout.constants = declared (tables model) := by
  have hused := Storage.placeTables_used
    (Storage.placeTables_of_placeConstants s.storage.constants_eq)
  rw [Nat.zero_add] at hused
  rw [s.storage.layout_eq]
  exact hused

/-- **An array of constants stands behind those before it**, at the sum of the counts that they
declare, however many values they hold. -/
theorem table_address (h : model.LabelsApart) {before after : List (String × Symbol)}
    {g : String × Symbol} (hsplit : tables model = before ++ g :: after) :
    c.layout.addresses.find? g.1 = some (declared before) := by
  have hplaced := Storage.placeTables_of_placeConstants s.storage.constants_eq
  have hnodup := Storage.nodup_tables h
  rw [hsplit] at hplaced hnodup
  have hfind := Storage.find?_placeTables hplaced (Storage.not_mem_behind hnodup)
  rw [Nat.zero_add] at hfind
  have hg : g ∈ tables model := by
    rw [hsplit]
    exact List.mem_append_right _ List.mem_cons_self
  obtain ⟨hglobal, hconstant⟩ := List.mem_filter.mp hg
  have hkept : s.storage.cursors.addresses.find? g.1 = s.storage.constants.addresses.find? g.1 := by
    refine Storage.find?_placeAll_of_not
      (Storage.placeAll_of_placeVariables s.storage.cursors_eq) fun g' hg' heq => ?_
    rw [Storage.eq_of_label h (Storage.mem_globals_of_placed hg') hglobal heq]
    unfold Storage.isConstantArray at hconstant
    rw [Bool.and_eq_true, decide_eq_true_eq] at hconstant
    exact hconstant.1
  rw [s.storage.layout_eq, ← hfind]
  exact hkept

/-- **A variable stands where the cursors were when it was placed**, or at its fixed
address. -/
theorem variable_address (h : model.LabelsApart) {before after : List (String × Symbol)}
    {g : String × Symbol} (hsplit : placedGlobals model c.forest = before ++ g :: after)
    (hstorage : g.2.storage ≠ .rom) :
    ∃ mid, placeAll { addresses := s.storage.constants.addresses } before = .ok mid ∧
      c.layout.addresses.find? g.1 = some (mid.given g.2) := by
  have hplaced := Storage.placeAll_of_placeVariables s.storage.cursors_eq
  have hnodup := Storage.nodup_placed h c.forest
  rw [hsplit] at hplaced hnodup
  obtain ⟨mid, hmid, hfind⟩ :=
    Storage.find?_placeAll hplaced hstorage (Storage.not_mem_behind hnodup)
  refine ⟨mid, hmid, ?_⟩
  rw [s.storage.layout_eq]
  exact hfind

end Stages

end Stackless
