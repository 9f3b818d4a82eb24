import Stackless.Compilation
import Stackless.Proofs.CallTrees

/-!
# The stages of an accepted build

An accepted build went through all its phases.  `Stages` names what each phase
gave to the next, so that a fact about the result is proved phase by phase:

1. the flat program, and the simplified one;
2. the forest;
3. the cursors behind the globals;
4. the program with frames, then with the windows of the main line, then with
   those of the handlers, and in the end with addresses for slots.

`stages_of_build` takes a build apart.  The other lemmas say function by function
what a phase does: which label it changes, and how.
-/

namespace Stackless

open Calls (Forest CallTree)

namespace Flat

/-- A function that was flattened comes from the model under its own label. -/
theorem exists_of_find?_ofModel {model : Model.Program} {flat : Program}
    (h : Program.ofModel model = .ok flat) {label : String} {g : Function}
    (hg : flat.find? label = some g) :
    ∃ m ∈ model.modules.values, ∃ f ∈ m.functions.values,
      f.label = label ∧ Function.ofModel model f = .ok g := by
  refine foldlM_keeps (fun flat => ∀ g, flat.find? label = some g → ∃ m ∈ model.modules.values,
    ∃ f ∈ m.functions.values, f.label = label ∧ Function.ofModel model f = .ok g)
    (fun flat f hf next hflat hstep g hg => ?_) (fun g hg => by cases hg) h g hg
  obtain ⟨function, hfunction, hnext⟩ := bind_eq_ok.mp hstep
  cases hnext
  rw [Table.find?_insert] at hg
  split at hg
  · rename_i hlabel
    cases hg
    obtain ⟨m, hm, hfm⟩ := List.mem_flatMap.mp hf
    exact ⟨m, hm, f, hfm, hlabel.symm, hfunction⟩
  · exact hflat g hg

/-- A function as it is made from the model has no storage yet. -/
theorem ofModel_storage {model : Model.Program} {f : Model.Function} {g : Function}
    (h : Function.ofModel model f = .ok g) :
    g.registers = {} ∧ g.bits = {} ∧ g.locals = ∅ := by
  obtain ⟨body, _, hg⟩ := bind_eq_ok.mp h
  cases hg
  exact ⟨rfl, rfl, rfl⟩

/-- Finding last uses changes nothing but the body. -/
theorem liveness_eq_ok {f g : Function} (h : f.liveness = .ok g) :
    Closed f.body ∧ g = { f with body := withLastUses f.body } := by
  unfold Function.liveness at h
  split at h
  · rename_i hclosed
    cases h
    exact ⟨hclosed, rfl⟩
  · cases h

theorem simplify_eq_ok {f g : Function} (h : f.simplify = .ok g) :
    ∃ body, settle f.label (roundLimit f.body) f.body = .ok body ∧ Closed body ∧
      g = { f with body := withLastUses body } := by
  obtain ⟨body, hbody, hlive⟩ := bind_eq_ok.mp h
  obtain ⟨hclosed, hg⟩ := liveness_eq_ok hlive
  exact ⟨body, orFail_eq_ok.mp hbody, hclosed, hg⟩

end Flat

namespace Storage

open Flat (Program Function Offset)

/-- What the phases of an allocation gave to one another, each with the equation that says so. A
lemma on a later phase takes what it needs from the fields of the earlier ones. -/
structure Stages (model : Model.Program) (p : Program) (forest : Forest) (final : Program)
    (layout : Layout) where
  constants : Constants
  cursors : Cursors
  framed : Program
  stacked : Program
  mainLine : Mark
  raised : Program
  top : Mark
  constants_eq : placeConstants model = .ok constants
  cursors_eq : placeVariables model forest constants.addresses = .ok cursors
  framed_eq : frames model cursors.addresses p forest.reachable = .ok framed
  stacked_eq : stack framed ⟨cursors.registers, cursors.bits⟩ forest.main = .ok stacked
  mainLine_eq : highWater stacked ⟨cursors.registers, cursors.bits⟩ forest.main = .ok mainLine
  raised_eq : stackHandlers stacked mainLine [] forest.interrupts = .ok (raised, top)
  final_eq : anchorAll raised forest.reachable = .ok final
  layout_eq : layout =
    { addresses := cursors.addresses, order := forest.reachable, registers := top.registers,
      bits := top.bits, ram := cursors.ram, constants := constants.used }

/-- The first register and bit that the globals leave free. -/
def Stages.free {model : Model.Program} {p : Program} {forest : Forest} {final : Program}
    {layout : Layout} (s : Stages model p forest final layout) : Mark :=
  ⟨s.cursors.registers, s.cursors.bits⟩

/-- An allocation that succeeded went through its stages. -/
theorem stages_of_allocate {model : Model.Program} {p : Program} {forest : Forest}
    {final : Program} {layout : Layout} (h : allocate model p forest = .ok (final, layout)) :
    Nonempty (Stages model p forest final layout) := by
  obtain ⟨constants, hconstants, h⟩ := bind_eq_ok.mp h
  obtain ⟨cursors, hcursors, h⟩ := bind_eq_ok.mp h
  obtain ⟨framed, hframed, h⟩ := bind_eq_ok.mp h
  obtain ⟨stacked, hstacked, h⟩ := bind_eq_ok.mp h
  obtain ⟨mainLine, hmainLine, h⟩ := bind_eq_ok.mp h
  obtain ⟨⟨raised, top⟩, hraised, h⟩ := bind_eq_ok.mp h
  obtain ⟨_, _, h⟩ := bind_eq_ok.mp h
  obtain ⟨anchored, hanchored, h⟩ := bind_eq_ok.mp h
  cases h
  exact ⟨⟨constants, cursors, framed, stacked, mainLine, raised, top, hconstants, hcursors,
    hframed, hstacked, hmainLine, hraised, hanchored, rfl⟩⟩

/-- **Frames, label by label.**  Each listed function gets its frame, and no
other function changes. -/
theorem find?_frames {model : Model.Program} {globals : Table Nat} :
    ∀ {labels : List String} {p q : Program}, labels.Nodup →
      frames model globals p labels = .ok q →
      (∀ label ∈ labels, ∃ source f g, model.function label = .ok source ∧
        p.find? label = some f ∧ frame globals source f = .ok g ∧ q.find? label = some g) ∧
      ∀ label, label ∉ labels → q.find? label = p.find? label
  | [], p, q, _, h => by
    cases h
    exact ⟨by simp, fun _ _ => rfl⟩
  | first :: rest, p, q, hnodup, h => by
    rw [frames] at h
    obtain ⟨source, hsource, h⟩ := bind_eq_ok.mp h
    have hsource := mapError_eq_ok.mp (orFail_eq_ok.mp hsource)
    cases hf : p.find? first with
    | none =>
        rw [hf] at h
        cases h
    | some f =>
        rw [hf] at h
        obtain ⟨g, hg, h⟩ := bind_eq_ok.mp h
        obtain ⟨hfresh, hnodup⟩ := List.nodup_cons.mp hnodup
        obtain ⟨hin, hout⟩ := find?_frames hnodup h
        constructor
        · intro label hlabel
          rcases List.mem_cons.mp hlabel with rfl | hrest
          · refine ⟨source, f, g, hsource, hf, hg, ?_⟩
            rw [hout label hfresh, Table.find?_insert_self]
          · obtain ⟨source', f', g', h1, h2, h3, h4⟩ := hin label hrest
            have hne : label ≠ first := fun heq => hfresh (heq ▸ hrest)
            rw [Table.find?_insert_of_ne _ _ hne] at h2
            exact ⟨source', f', g', h1, h2, h3, h4⟩
        · intro label hlabel
          obtain ⟨hne, hrest⟩ := not_or.mp (mt List.mem_cons.mpr hlabel)
          rw [hout label hrest, Table.find?_insert_of_ne _ _ hne]

/-- **Addresses, label by label.**  Each listed function that the program has is
anchored, and no other function changes. -/
theorem find?_anchorAll :
    ∀ {labels : List String} {p q : Program}, labels.Nodup → anchorAll p labels = .ok q →
      (∀ label ∈ labels, ∀ f, p.find? label = some f →
        ∃ g, anchor f = .ok g ∧ q.find? label = some g) ∧
      ∀ label, label ∉ labels → q.find? label = p.find? label
  | [], p, q, _, h => by
    cases h
    exact ⟨by simp, fun _ _ => rfl⟩
  | first :: rest, p, q, hnodup, h => by
    obtain ⟨hfresh, hnodup⟩ := List.nodup_cons.mp hnodup
    rw [anchorAll] at h
    cases hf : p.find? first with
    | none =>
        rw [hf] at h
        obtain ⟨hin, hout⟩ := find?_anchorAll hnodup h
        constructor
        · intro label hlabel f hfind
          rcases List.mem_cons.mp hlabel with rfl | hlabel
          · rw [hf] at hfind
            cases hfind
          · exact hin label hlabel f hfind
        · intro label hlabel
          exact hout label (mt (List.mem_cons_of_mem _) hlabel)
    | some f =>
        rw [hf] at h
        obtain ⟨g, hg, h⟩ := bind_eq_ok.mp h
        obtain ⟨hin, hout⟩ := find?_anchorAll hnodup h
        constructor
        · intro label hlabel f' hfind
          rcases List.mem_cons.mp hlabel with rfl | hrest
          · rw [hf] at hfind
            cases hfind
            refine ⟨g, hg, ?_⟩
            rw [hout label hfresh, Table.find?_insert_self]
          · have hne : label ≠ first := fun heq => hfresh (heq ▸ hrest)
            refine hin label hrest f' ?_
            rw [Table.find?_insert_of_ne _ _ hne]
            exact hfind
        · intro label hlabel
          obtain ⟨hne, hrest⟩ := not_or.mp (mt List.mem_cons.mpr hlabel)
          rw [hout label hrest, Table.find?_insert_of_ne _ _ hne]

/-- The intermediate values of a frame: what is pinned, what the ports pass, and
the visit of the ops. -/
structure Framing (globals : Table Nat) (source : Model.Function) (f g : Function) where
  pinned : Pools
  symbols : Table Offset
  visit : Visit
  pools : Pools
  body : List Flat.Op
  pin_eq : pinLocals {} f.locals source.symbols.entries = .ok (pinned, symbols)
  scope_eq : visit.scope =
    { label := f.label, globals, locals := (pinResult pinned symbols source.returns).2 }
  pass_eq : passPorts visit.scope f.body = .ok (visit.body, visit.passed)
  literals_eq : materialized visit.body = .ok visit.literals
  ops_eq : visit.ops (pinResult pinned symbols source.returns).1 0 visit.body = .ok (body, pools)
  frame_eq : g = { f with
    body
    locals := visit.scope.locals
    registers := { f.registers with count := pools.registers.count }
    bits := { f.bits with count := pools.bits.count } }

/-- A frame that was made went through its values. -/
theorem framing_of_frame {globals : Table Nat} {source : Model.Function} {f g : Function}
    (h : frame globals source f = .ok g) : Nonempty (Framing globals source f g) := by
  unfold frame at h
  obtain ⟨⟨pinned, symbols⟩, hpin, h⟩ := bind_eq_ok.mp h
  obtain ⟨⟨body, passed⟩, hpass, h⟩ := bind_eq_ok.mp h
  obtain ⟨literals, hliterals, h⟩ := bind_eq_ok.mp h
  obtain ⟨⟨body', pools⟩, hops, h⟩ := bind_eq_ok.mp h
  cases h
  exact ⟨⟨pinned, symbols, ⟨_, body, passed, literals⟩, pools, body', hpin, rfl, hpass,
    hliterals, hops, rfl⟩⟩

/-- A frame leaves the bases of the windows, the label and the kind alone. -/
theorem frame_keeps {globals : Table Nat} {source : Model.Function} {f g : Function}
    (h : frame globals source f = .ok g) :
    g.registers.base = f.registers.base ∧ g.bits.base = f.bits.base := by
  obtain ⟨fr⟩ := framing_of_frame h
  rw [fr.frame_eq]
  exact ⟨rfl, rfl⟩

/-- Anchoring replaces every offset and nothing else. -/
theorem anchor_eq_ok {f g : Function} (h : anchor f = .ok g) :
    ∃ body locals, f.body.mapM (fun op => do
        let offset ← anchorOffset f.registers f.bits op.offset
        return { op with offset }) = .ok body ∧
      Table.mapM (anchorOffset f.registers f.bits) f.locals = .ok locals ∧
      g = { f with body, locals } := by
  obtain ⟨body, hbody, h⟩ := bind_eq_ok.mp h
  obtain ⟨locals, hlocals, h⟩ := bind_eq_ok.mp h
  cases h
  exact ⟨body, locals, hbody, hlocals, rfl⟩

end Storage

/-- What the phases of a build gave to one another. It carries data, since the bodies before an
allocation cannot be found in the compilation any more. -/
structure Stages (model : Model.Program) (c : Compilation) where
  flat : Flat.Program
  simple : Flat.Program
  flat_eq : Flat.Program.ofModel model = .ok flat
  simple_eq : flat.simplify = .ok simple
  forest_eq : Forest.build model simple = .ok c.forest
  storage : Storage.Stages model simple c.forest c.program c.layout

/-- **A build that was accepted went through its stages.**  Everything that is said of accepted
builds starts from here. -/
theorem stages_of_build {model : Model.Program} {c : Compilation} (h : build model = .ok c) :
    Nonempty (Stages model c) := by
  obtain ⟨flat, hflat, h⟩ := bind_eq_ok.mp h
  obtain ⟨simple, hsimple, h⟩ := bind_eq_ok.mp h
  obtain ⟨forest, hforest, h⟩ := bind_eq_ok.mp h
  obtain ⟨⟨final, layout⟩, hstorage, h⟩ := bind_eq_ok.mp h
  cases h
  obtain ⟨storage⟩ := Storage.stages_of_allocate hstorage
  exact ⟨⟨flat, simple, orFail_eq_ok.mp hflat, hsimple, orFail_eq_ok.mp hforest, storage⟩⟩

namespace Stages

variable {model : Model.Program} {c : Compilation}

/-- The forest of a build is the forest of its simplified program. -/
theorem rooted (s : Stages model c) : Forest.Rooted model s.simple c.forest :=
  Forest.rooted_of_build s.forest_eq

/-- The functions of the layout are the ones that are reached. -/
theorem order_eq (s : Stages model c) : c.layout.order = c.forest.reachable := by
  rw [s.storage.layout_eq]

/-- A function that was simplified comes from the model, and has no storage. -/
theorem simple_storage (s : Stages model c) {label : String} {f : Flat.Function}
    (hf : s.simple.find? label = some f) :
    f.registers = {} ∧ f.bits = {} ∧ f.locals = ∅ := by
  obtain ⟨f0, hf0, hsimp⟩ := Table.find?_mapM_rev s.simple_eq hf
  obtain ⟨_, _, _, _, _, hof⟩ := Flat.exists_of_find?_ofModel s.flat_eq hf0
  obtain ⟨_, _, _, hf⟩ := Flat.simplify_eq_ok hsimp
  have hnone := Flat.ofModel_storage hof
  subst hf
  exact hnone

end Stages

end Stackless
