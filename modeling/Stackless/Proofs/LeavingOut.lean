import Mathlib.Data.List.Perm.Basic
import Mathlib.Data.List.Sort
import Stackless.Proofs.WindowSeparation

/-!
# Leaving out a function

Phases after simplification look functions up by their labels.  A function that is never looked
up can be left out before a phase or after it, and the outcome is the same:

* `Calls.unfolding_erase` — a function that no other calls is in no tree of another;
* `Storage.frames_erase`, `stack_erase`, `stackHandlers_erase`, `anchorAll_erase` — frames,
  windows and addresses do not depend on functions that are not asked for;
* `Storage.allocate_erase` — so does an allocation.
-/

namespace Stackless

section Chains

variable {ε α β γ δ : Type}

/-- Two chains that start alike are the same up to a change of the outcome, if what follows is. -/
theorem bind_eq_map {x y : Except ε α} {f : α → Except ε β} {g : α → Except ε γ} {change : γ → β}
    (hxy : x = y) (h : ∀ a, y = .ok a → f a = (g a).map change) :
    (x >>= f) = (y >>= g).map change := by
  subst hxy
  cases x with
  | error e => rfl
  | ok a => exact h a rfl

/-- Their first steps, too, may be the same up to a change. -/
theorem map_bind_eq_map {x : Except ε α} {y : Except ε δ} {before : δ → α} {f : α → Except ε β}
    {g : δ → Except ε γ} {change : γ → β} (hxy : x = y.map before)
    (h : ∀ a, f (before a) = (g a).map change) : (x >>= f) = (y >>= g).map change := by
  subst hxy
  cases y with
  | error e => rfl
  | ok a => exact h a

/-- A step over a list depends on what it does at the elements. -/
theorem mapM_congr {f g : α → Except ε β} :
    ∀ {xs : List α}, (∀ x ∈ xs, f x = g x) → xs.mapM f = xs.mapM g
  | [], _ => rfl
  | x :: xs, h => by
    rw [List.mapM_cons, List.mapM_cons, h x List.mem_cons_self,
      mapM_congr fun x hx => h x (List.mem_cons_of_mem _ hx)]

end Chains

namespace Table

variable {α β : Type}

/-- Tables in which the same is found are the same. -/
theorem ext_find? {t u : Table α} (h : ∀ name, t.find? name = u.find? name) : t = u := by
  have hnodup : ∀ v : Table α, v.entries.Nodup := fun v =>
    v.ascending.imp fun {a b} (hlt : a.1 < b.1) (heq : a = b) => String.lt_irrefl _ (heq ▸ hlt)
  have hperm : t.entries.Perm u.entries :=
    (List.perm_ext_iff_of_nodup (hnodup t) (hnodup u)).mpr fun e => by
      rw [← find?_eq_some, ← find?_eq_some, h]
  have hentries : t.entries = u.entries :=
    hperm.eq_of_pairwise (fun a b _ _ hab hba => absurd (String.lt_trans hab hba) (String.lt_irrefl _))
      t.ascending u.ascending
  cases t
  cases u
  cases hentries
  rfl

/-- What is found after a name was taken out. -/
theorem find?_erase (t : Table α) (name other : String) :
    (t.erase name).find? other = if other = name then none else t.find? other := by
  have hmem : ∀ a, (t.erase name).find? other = some a ↔ other ≠ name ∧ t.find? other = some a := by
    intro a
    rw [find?_eq_some, find?_eq_some, erase, List.mem_filter, and_comm, decide_eq_true_iff]
  split
  · rename_i heq
    exact Option.eq_none_iff_forall_ne_some.mpr fun a ha => ((hmem a).mp ha).1 heq
  · rename_i hne
    ext a
    rw [hmem a, and_iff_right hne]

theorem find?_erase_of_ne (t : Table α) {name other : String} (h : other ≠ name) :
    (t.erase name).find? other = t.find? other := by
  rw [find?_erase, if_neg h]

/-- An entry that is taken out may be put in before or not. -/
theorem erase_insert_self (t : Table α) (name : String) (value : α) :
    (t.insert name value).erase name = t.erase name := by
  refine ext_find? fun other => ?_
  rw [find?_erase, find?_erase, find?_insert]
  split <;> rfl

/-- Another entry may be put in before or after. -/
theorem erase_insert_of_ne (t : Table α) {name other : String} (value : α) (h : other ≠ name) :
    (t.insert other value).erase name = (t.erase name).insert other value := by
  refine ext_find? fun key => ?_
  rw [find?_erase, find?_insert, find?_insert, find?_erase]
  by_cases hkey : key = name
  · rw [if_pos hkey, if_pos hkey, if_neg (fun heq => h (heq.symm.trans hkey))]
  · rw [if_neg hkey, if_neg hkey]

/-- What is found after a step over a table. -/
theorem find?_mapM_iff {ε : Type} {f : α → Except ε β} {t : Table α} {u : Table β}
    (h : t.mapM f = .ok u) {name : String} {b : β} :
    u.find? name = some b ↔ ∃ a, t.find? name = some a ∧ f a = .ok b := by
  refine ⟨find?_mapM_rev h, fun ⟨a, ha, hb⟩ => ?_⟩
  obtain ⟨b', hb', hfind⟩ := find?_mapM h ha
  rw [hb] at hb'
  rwa [Except.ok.inj hb']

/-- A name may be taken out before a step over a table or after it. -/
theorem erase_mapM {ε : Type} {f : α → Except ε β} {t : Table α} {u v : Table β} {name : String}
    (ht : t.mapM f = .ok u) (he : (t.erase name).mapM f = .ok v) : v = u.erase name := by
  refine ext_find? fun other => Option.ext fun b => ?_
  rw [find?_mapM_iff he]
  by_cases hne : other = name
  · simp only [find?_erase, if_pos hne, reduceCtorEq, false_and, exists_false]
  · simp only [find?_erase, if_neg hne]
    exact (find?_mapM_iff ht).symm

end Table

namespace Calls

open Flat (Program Function)

variable {p : Program} {label : String}

/-- No function but perhaps itself calls the function. A function that only calls itself is as
unreached as one that nobody calls. -/
def Uncalled (p : Program) (label : String) : Prop :=
  ∀ name f, name ≠ label → p.find? name = some f → ∀ call ∈ f.calls, call.1 ≠ label

theorem isHandler_erase {name : String} (h : name ≠ label) :
    isHandler (p.erase label) name = isHandler p name := by
  rw [isHandler, Table.find?_erase_of_ne p h]
  rfl

/-- **Other functions unfold as before**, if they do not call the one that is left out. -/
theorem unfolding_erase (huncalled : Uncalled p label) {path : List String} {name : String}
    (hne : name ≠ label) (fresh : name ∉ path) :
    unfolding (p.erase label) path name fresh = unfolding p path name fresh := by
  induction hn : freeNames p path using Nat.strongRecOn generalizing path name with
  | ind n ih =>
      rw [unfolding, unfolding]
      split
      · rename_i hfind
        rw [Table.find?_erase_of_ne p hne] at hfind
        split
        · rfl
        · rename_i f hsome
          rw [hfind] at hsome
          cases hsome
      · rename_i f hfind
        rw [Table.find?_erase_of_ne p hne] at hfind
        split
        · rename_i hnone
          rw [hfind] at hnone
          cases hnone
        · rename_i f' hfind'
          rw [hfind] at hfind'
          cases hfind'
          have hcalls := huncalled name f hne hfind
          congr 1
          funext _
          congr 1
          refine mapM_congr fun call hcall => ?_
          rw [isHandler_erase (hcalls call hcall)]
          split
          · rfl
          · split
            · rfl
            · exact ih _ (hn ▸ freeNames_append_lt hfind fresh) (hcalls call hcall) _ rfl

namespace Forest

/-- **The forest does not depend on a function** that is neither entered nor called. -/
theorem build_erase {model : Model.Program} (huncalled : Uncalled p label)
    (hentry : model.entry ≠ label) (hvectors : ∀ handler ∈ model.vectors.handlers, handler.2 ≠ label) :
    build model (p.erase label) = build model p := by
  have hcontains : (p.erase label).contains model.entry = p.contains model.entry := by
    rw [Table.contains, Table.find?_erase_of_ne p hentry]
    rfl
  have hmain : CallTree.build (p.erase label) model.entry = CallTree.build p model.entry :=
    unfolding_erase huncalled hentry _
  have hhandler : ∀ handler ∈ model.vectors.handlers,
      handlerTree (p.erase label) handler.2 = handlerTree p handler.2 := by
    intro handler hmem
    rw [handlerTree, handlerTree, Table.find?_erase_of_ne p (hvectors handler hmem)]
    cases p.find? handler.2 with
    | none => rfl
    | some f =>
        show (if f.isr then CallTree.build _ _ else _) = if f.isr then CallTree.build _ _ else _
        rw [show CallTree.build (p.erase label) handler.2 = CallTree.build p handler.2 from
          unfolding_erase huncalled (hvectors handler hmem) _]
  rw [build, build, hcontains, hmain, mapM_congr fun handler hmem => by rw [hhandler handler hmem]]

end Forest

end Calls

namespace Storage

open Flat (Program Function)
open Calls (CallTree Forest)

variable {p : Program} {label : String}

/-- Frames do not depend on functions that are not asked for: with such a function left out, frames
are found or refused as before, and are the same but for it. -/
theorem frames_erase {model model' : Model.Program} {globals : Table Nat}
    (hfunction : ∀ other, other ≠ label → model'.function other = model.function other) :
    ∀ {labels : List String} {p : Program}, label ∉ labels →
      frames model globals (p.erase label) labels =
        (frames model' globals p labels).map (·.erase label)
  | [], _, _ => rfl
  | other :: rest, p, h => by
    have hne := (List.ne_of_not_mem_cons h).symm
    have hrest := List.not_mem_of_not_mem_cons h
    rw [frames, frames, hfunction other hne, Table.find?_erase_of_ne p hne]
    refine bind_eq_map rfl fun source _ => ?_
    cases p.find? other with
    | none => rfl
    | some f =>
        refine bind_eq_map rfl fun g _ => ?_
        rw [← Table.erase_insert_of_ne p g hne]
        exact frames_erase hfunction hrest

mutual

/-- Windows do not depend on functions that are not in the tree. A function is raised only as its
name is met in the tree, by the sizes of those above it. -/
theorem stack_erase :
    ∀ (tree : CallTree) {p : Program} (m : Mark), ¬tree.Occurs label →
      stack (p.erase label) m tree = (stack p m tree).map (·.erase label)
  | .node name calls, p, m, h => by
    have hne : name ≠ label := fun heq => h ⟨_, .refl, heq⟩
    have hcalls : ∀ child ∈ calls, ¬child.Occurs label := fun child hchild hoccurs =>
      h (hoccurs.under hchild)
    rw [stack, stack, Table.find?_erase_of_ne p hne]
    cases p.find? name with
    | none => rfl
    | some f =>
        refine bind_eq_map rfl fun above _ => ?_
        rw [← Table.erase_insert_of_ne p _ hne]
        exact stackAll_erase calls above hcalls

theorem stackAll_erase :
    ∀ (trees : List CallTree) {p : Program} (m : Mark), (∀ tree ∈ trees, ¬tree.Occurs label) →
      stackAll (p.erase label) m trees = (stackAll p m trees).map (·.erase label)
  | [], _, _, _ => rfl
  | tree :: rest, p, m, h => by
    rw [stackAll, stackAll]
    exact map_bind_eq_map (stack_erase tree m (h tree List.mem_cons_self)) fun q =>
      stackAll_erase rest m fun tree htree => h tree (List.mem_cons_of_mem _ htree)

end

/-- The high-water mark does not depend on functions that are not in the tree. -/
theorem highWater_erase {tree : CallTree} (m : Mark) (h : label ∉ tree.discovery) :
    highWater (p.erase label) m tree = highWater p m tree := by
  have hfind : tree.discovery.filterMap (p.erase label).find? = tree.discovery.filterMap p.find? :=
    List.filterMap_congr fun name hname =>
      Table.find?_erase_of_ne p fun heq => h (heq ▸ hname)
  rw [highWater, highWater, hfind]

/-- Handlers' windows do not depend on functions that are not in their trees, and neither does the
mark up to which all handlers come. -/
theorem stackHandlers_erase :
    ∀ {handlers : List (Nat × CallTree)} {p : Program} (m : Mark) (placed : List String),
      (∀ h ∈ handlers, ¬h.2.Occurs label ∧ label ∉ h.2.discovery) →
      stackHandlers (p.erase label) m placed handlers =
        (stackHandlers p m placed handlers).map fun out => (out.1.erase label, out.2)
  | [], _, _, _, _ => rfl
  | (_, tree) :: rest, p, m, placed, h => by
    obtain ⟨hoccurs, hdiscovery⟩ := h _ List.mem_cons_self
    have hrest := fun handler hmem => h handler (List.mem_cons_of_mem _ hmem)
    rw [stackHandlers, stackHandlers]
    split
    · exact stackHandlers_erase m placed hrest
    · exact map_bind_eq_map (stack_erase tree m hoccurs) fun q =>
        bind_eq_map (highWater_erase m hdiscovery) fun top _ => stackHandlers_erase top _ hrest

/-- The check of handlers does not depend on functions that it is not about. -/
theorem checkHandlers_erase (m : Mark) :
    ∀ {labels : List String}, label ∉ labels →
      checkHandlers (p.erase label) m labels = checkHandlers p m labels
  | [], _ => rfl
  | other :: rest, h => by
    have hne := (List.ne_of_not_mem_cons h).symm
    have hrest := List.not_mem_of_not_mem_cons h
    rw [checkHandlers, checkHandlers, Table.find?_erase_of_ne p hne,
      checkHandlers_erase m hrest]

/-- Addresses do not depend on functions that are not asked for. -/
theorem anchorAll_erase :
    ∀ {labels : List String} {p : Program}, label ∉ labels →
      anchorAll (p.erase label) labels = (anchorAll p labels).map (·.erase label)
  | [], _, _ => rfl
  | other :: rest, p, h => by
    have hne := (List.ne_of_not_mem_cons h).symm
    have hrest := List.not_mem_of_not_mem_cons h
    rw [anchorAll, anchorAll, Table.find?_erase_of_ne p hne]
    cases p.find? other with
    | none => exact anchorAll_erase hrest
    | some f =>
        refine bind_eq_map rfl fun g _ => ?_
        rw [← Table.erase_insert_of_ne p g hne]
        exact anchorAll_erase hrest

/-- **An allocation does not depend on a function that the forest does not reach.**  The globals of
the two programs are placed alike, and they have the same functions but for that one. -/
theorem allocate_erase {model model' : Model.Program} {forest : Forest}
    (hrooted : Forest.Rooted model (p.erase label) forest)
    (hfunction : ∀ other, other ≠ label → model'.function other = model.function other)
    (hconstants : placeConstants model = placeConstants model')
    (hvariables : ∀ addresses, placeVariables model forest addresses =
      placeVariables model' forest addresses) :
    allocate model (p.erase label) forest =
      (allocate model' p forest).map fun out => (out.1.erase label, out.2) := by
  have hnone : (p.erase label).find? label = none := by
    rw [Table.find?_erase, if_pos rfl]
  have habsent : ∀ tree, Calls.Unfolds (p.erase label) tree →
      ¬tree.Occurs label ∧ label ∉ tree.discovery := by
    intro tree hunfolds
    have hoccurs : ¬tree.Occurs label := fun hoccurs => by
      obtain ⟨f, hf⟩ := hunfolds.find?_of_occurs hoccurs
      cases hnone.symm.trans hf
    exact ⟨hoccurs, fun hmem => hoccurs ((Calls.mem_discovery_iff hunfolds).mp hmem)⟩
  have hreachable : label ∉ forest.reachable := fun hmem => by
    obtain ⟨f, hf⟩ := hrooted.find?_of_mem_reachable hmem
    cases hnone.symm.trans hf
  have hmain := habsent _ hrooted.main_unfolds
  have hhandlers := fun h hh => habsent h.2 (hrooted.handler_unfolds h hh)
  refine bind_eq_map hconstants fun constants _ => ?_
  refine bind_eq_map (hvariables _) fun cursors _ => ?_
  refine map_bind_eq_map (frames_erase hfunction hreachable) fun framed => ?_
  refine map_bind_eq_map (stack_erase _ _ hmain.1) fun stacked => ?_
  refine bind_eq_map (highWater_erase _ hmain.2) fun mainLine _ => ?_
  refine map_bind_eq_map (stackHandlers_erase mainLine [] hhandlers) fun raised => ?_
  refine bind_eq_map (checkHandlers_erase _ ?_) fun _ _ => ?_
  · rw [List.mem_flatMap]
    rintro ⟨h, hh, hmem⟩
    exact (hhandlers h hh).2 hmem
  · exact map_bind_eq_map (anchorAll_erase hreachable) fun final => rfl

end Storage

namespace Assembly

open Flat (Instruction Op)

/-- The function that an instruction calls or passes a value to. -/
def calleeOf? : Instruction → Option String
  | .call function _ | .parameter function _ _ => some function
  | _ => none

namespace Writing

/-- A function about to be written, in a program without another. -/
def without (w : Writing) (label : String) : Writing :=
  { w with program := w.program.erase label }

theorem slot_without (w : Writing) {label other : String} (h : other ≠ label) (index : Nat)
    (name : String) : (w.without label).slot index other name = w.slot index other name := by
  rw [slot, slot, without, Table.find?_erase_of_ne _ h]
  rfl

/-- **The lines of an op do not depend on functions** that it neither calls nor is part of. -/
theorem opLines_without (w : Writing) {label : String} (hself : w.function.label ≠ label)
    (index : Nat) {op : Op} (hcallee : ∀ callee, calleeOf? op.instruction = some callee → callee ≠ label) :
    (w.without label).opLines index op = w.opLines index op := by
  unfold opLines
  cases hinstr : op.instruction with
  | call function result =>
      have hne := hcallee function (by rw [hinstr]; rfl)
      dsimp only
      cases result with
      | none => rfl
      | some width =>
          dsimp only
          rw [slot_without w hne]
          rfl
  | parameter function name value =>
      have hne := hcallee function (by rw [hinstr]; rfl)
      dsimp only
      rw [slot_without w hne]
      rfl
  | ret value =>
      cases value with
      | none => rfl
      | some value =>
          dsimp only
          rw [show (w.without label).function.label = w.function.label from rfl, slot_without w hself]
          rfl
  | math op width | assign op width =>
      cases width with
      | word | bit => rfl
  | _ => rfl

theorem bodyLines_without (w : Writing) {label : String} (hself : w.function.label ≠ label) :
    ∀ (ops : List Op) (index : Nat),
      (∀ op ∈ ops, ∀ callee, calleeOf? op.instruction = some callee → callee ≠ label) →
      (w.without label).bodyLines index ops = w.bodyLines index ops
  | [], _, _ => rfl
  | op :: rest, index, h => by
    rw [bodyLines, bodyLines, opLines_without w hself index (h op List.mem_cons_self),
      bodyLines_without w hself rest (index + 1) fun op hop => h op (List.mem_cons_of_mem _ hop)]

end Writing

/-- **Sections do not depend on a function** that is not among them and is called by none. -/
theorem sections_erase {p : Flat.Program} {label : String} {addresses : Table Nat} :
    ∀ {labels : List String},
      (∀ other ∈ labels, other ≠ label ∧ ∀ f, p.find? other = some f → f.label ≠ label ∧
        ∀ op ∈ f.body, ∀ callee, calleeOf? op.instruction = some callee → callee ≠ label) →
      sections (p.erase label) addresses labels = sections p addresses labels
  | [], _ => rfl
  | other :: rest, h => by
    obtain ⟨hne, hbody⟩ := h other List.mem_cons_self
    rw [sections, sections, Table.find?_erase_of_ne p hne]
    cases hf : p.find? other with
    | none => rfl
    | some f =>
        obtain ⟨hself, hcallee⟩ := hbody f hf
        dsimp only
        rw [sections_erase fun other hother => h other (List.mem_cons_of_mem _ hother),
          ← Writing.bodyLines_without ⟨p, addresses, f⟩ hself f.body 0 hcallee]
        rfl

end Assembly

end Stackless
