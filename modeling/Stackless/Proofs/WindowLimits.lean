import Mathlib.Algebra.Order.BigOperators.Group.List
import Mathlib.Algebra.Order.Group.Nat
import Stackless.Proofs.Lineage
import Stackless.Proofs.WindowTightness

/-!
# When windows leave the range of a word

Once the globals have their addresses and the functions their frames, nothing can go wrong any
more but the arithmetic on addresses.  Every number that is computed then is below one of these
sums: what stands behind the globals along a call chain, and the handlers on top of it.  So the
rest of an allocation fails just if such a sum is out of range, and the failure is a trap.

* `failsOnly_stack_chains`, `failsOnly_highWater_chains` — the main line;
* `failsOnly_stackHandlers` — the handlers;
* `window_le_top` — no window ends above the top, so slots get their addresses;
* `Prepared.trapFor_allocate` — all of it together.
-/

namespace Stackless

open Flat (Program Function File CallChain)
open Calls (CallTree Forest Unfolds)

namespace Storage

variable {P : Failure → Prop}

section Chains

variable {prog p q : Program} {m : Mark} {tree : CallTree}

/-- **A tree is stacked** unless a call chain ends out of range. A window is raised to the end of
the one above it, and those ends are sums over the chains that lead there. -/
theorem failsOnly_stack_chains (hunf : Unfolds prog tree)
    (hframes : ∀ name, tree.Occurs name → ∃ f, p.find? name = some f)
    (htrap : ∀ file chain, CallChain prog tree.name chain →
      wordLimit ≤ m.at file + cellsOf p file chain → P .trap) :
    FailsOnly P (stack p m tree) := by
  refine failsOnly_stack (fun name hname hnone => ?_) fun name n file hstands hlimit => ?_
  · obtain ⟨f, hf⟩ := hframes name hname
    rw [hnone] at hf
    cases hf
  · obtain ⟨above, hchain, hmark⟩ := hstands.exists_chain hunf
    refine htrap file _ hchain ?_
    rw [cellsOf_append, cellsOf_cons, cellsOf_nil]
    have hmark := hmark file
    omega

/-- **The end of the main line is found** unless a call chain ends out of range. -/
theorem failsOnly_highWater_chains (hraise : Raising p m [tree] q) (hunf : Unfolds prog tree)
    (hframes : ∀ name, tree.Occurs name →
      ∃ f, p.find? name = some f ∧ ∀ file, (f.window file).base = 0)
    (htrap : ∀ file chain, CallChain prog tree.name chain →
      wordLimit ≤ m.at file + cellsOf p file chain → P .trap) :
    FailsOnly P (highWater q m tree) := by
  refine failsOnly_highWater fun name hname g hg file hlimit => ?_
  have hoccurs := (Calls.mem_discovery_iff hunf).mp hname
  obtain ⟨f, hf, hlow⟩ := hframes name hoccurs
  obtain ⟨above, hchain, hbase⟩ := (hraise.isGreatest_base hunf hoccurs hf hg file (hlow file)).1
  obtain ⟨g', hg', hsame⟩ := hraise.same name f hf
  rw [hg] at hg'
  cases hg'
  refine htrap file _ hchain ?_
  rw [cellsOf_append, cellsOf_cons, cellsOf_nil, at_sizes hf, ← hsame.count_eq]
  omega

end Chains

section Handlers

/-- Programs with the same sizes have the same cells. -/
theorem cellsOf_congr {p q : Program} (h : sizes q = sizes p) (file : File) (names : List String) :
    cellsOf q file names = cellsOf p file names := by
  rw [cellsOf, cellsOf, h]

/-- A part of some functions, each once, has at most their cells. -/
theorem cellsOf_le {p : Program} {file : File} {xs ys : List String} (hnodup : xs.Nodup)
    (h : xs ⊆ ys) : cellsOf p file xs ≤ cellsOf p file ys := by
  obtain ⟨zs, hperm, hsub⟩ := List.subperm_of_subset hnodup h
  rw [← cellsOf_perm hperm]
  exact (hsub.map _).sum_le_sum fun _ _ => Nat.zero_le _

/-- A function by itself is stacked unless it ends out of range. -/
theorem failsOnly_stack_single {p : Program} {m : Mark} {name : String} {f : Function}
    (hf : p.find? name = some f)
    (htrap : ∀ file, wordLimit ≤ m.at file + (sizes p name).at file → P .trap) :
    FailsOnly P (stack p m (.node name [])) := by
  refine failsOnly_stack (fun other hother hnone => ?_) fun other n file hstands => ?_
  · obtain ⟨t, ht, rfl⟩ := hother
    cases ht with
    | refl =>
        rw [CallTree.name, hf] at hnone
        cases hnone
    | under hchild _ => cases hchild
  · cases hstands with
    | root => exact htrap file
    | call hchild _ => cases hchild

/-- The end of a function that was stacked by itself is found unless it is out of range. -/
theorem failsOnly_highWater_single {p mid : Program} {m : Mark} {name : String} {f : Function}
    (hraise : Raising p m [.node name []] mid) (hf : p.find? name = some f)
    (hlow : ∀ file, (f.window file).base ≤ m.at file)
    (htrap : ∀ file, wordLimit ≤ m.at file + (sizes p name).at file → P .trap) :
    FailsOnly P (highWater mid m (.node name [])) := by
  obtain ⟨g, hg, hwindow⟩ := single_window hraise hf hlow
  refine failsOnly_highWater fun other hother g' hg' file hlimit => ?_
  rw [discovery_single] at hother
  rw [List.mem_singleton.mp hother, hg] at hg'
  cases hg'
  obtain ⟨hbase, hcount⟩ := hwindow file
  exact htrap file (by omega)

/-- **Handlers are stacked** unless some of them together end out of range. A handler that comes up
at several levels is placed once, so that names are counted once. -/
theorem failsOnly_stackHandlers :
    ∀ {handlers : List (Nat × CallTree)} {placed : List String} {p : Program} {m : Mark},
      (∀ h ∈ handlers, h.2 = .node h.2.name []) →
      (∀ h ∈ handlers, StartsBelow p m placed h.2.name) →
      (∀ file names, names.Nodup →
        (∀ name ∈ names, name ∉ placed ∧ name ∈ handlers.map (·.2.name)) →
        wordLimit ≤ m.at file + cellsOf p file names → P .trap) →
      FailsOnly P (stackHandlers p m placed handlers)
  | [], _, _, _, _, _, _ => .ok _
  | (level, tree) :: rest, placed, p, m, hsingle, hlow, htrap => by
    have hsingle' : ∀ h ∈ rest, h.2 = .node h.2.name [] := fun h hh =>
      hsingle h (List.mem_cons_of_mem _ hh)
    have hlow' : ∀ h ∈ rest, StartsBelow p m placed h.2.name := fun h hh =>
      hlow h (List.mem_cons_of_mem _ hh)
    rw [stackHandlers]
    split
    · refine failsOnly_stackHandlers hsingle' hlow' fun file names hnodup hmem => ?_
      exact htrap file names hnodup fun name hname =>
        ⟨(hmem name hname).1, List.mem_cons_of_mem _ (hmem name hname).2⟩
    · rename_i hnew
      obtain ⟨f, hf, hbelow⟩ := hlow (level, tree) List.mem_cons_self
      have hnode : tree = .node tree.name [] := hsingle (level, tree) List.mem_cons_self
      have hbottom : ∀ file names, names.Nodup → (∀ name ∈ names,
          name ∉ placed ++ [tree.name] ∧ name ∈ rest.map (·.2.name)) →
          wordLimit ≤ m.at file + (sizes p tree.name).at file + cellsOf p file names → P .trap := by
        intro file names hnodup hmem hlimit
        have hnot : ∀ name ∈ names, name ∉ placed ∧ name ≠ tree.name := by
          intro name hname
          have hfresh := (hmem name hname).1
          rw [List.mem_append, List.mem_singleton] at hfresh
          exact not_or.mp hfresh
        refine htrap file (tree.name :: names) ?_ ?_ ?_
        · exact List.nodup_cons.mpr ⟨fun hname => (hnot _ hname).2 rfl, hnodup⟩
        · intro name hname
          rcases List.mem_cons.mp hname with rfl | hname
          · exact ⟨hnew, List.mem_cons_self⟩
          · exact ⟨(hnot name hname).1, List.mem_cons_of_mem _ (hmem name hname).2⟩
        · rw [cellsOf_cons]
          omega
      have halone : ∀ file, wordLimit ≤ m.at file + (sizes p tree.name).at file → P .trap :=
        fun file hlimit => hbottom file [] List.nodup_nil (fun _ hname => by cases hname) hlimit
      have hstack : FailsOnly P (stack p m tree) := by
        rw [hnode]
        exact failsOnly_stack_single hf halone
      refine hstack.chain fun mid hmid => ?_
      have hraise := raising_of_stack hmid
      rw [hnode] at hraise
      have hwater : FailsOnly P (highWater mid m tree) := by
        rw [hnode]
        exact failsOnly_highWater_single hraise hf (hbelow hnew) halone
      refine hwater.chain fun k hk => ?_
      have hle : ∀ file, m.at file ≤ k.at file := fun file => (highWater_eq_ok hk file).1
      rw [hnode] at hk
      have hmark := (single_exact hraise hf (hbelow hnew) hk).2
      refine failsOnly_stackHandlers hsingle' (fun h hh => (hlow' h hh).next hraise hle)
        fun file names hnodup hmem hlimit => ?_
      rw [hmark file, cellsOf_congr hraise.sizes_eq] at hlimit
      exact hbottom file names hnodup hmem hlimit

end Handlers

/-- **No window ends above the top**, if the handlers stand on the main line. So the arithmetic of
addresses within windows stays in range when that of the marks did. -/
theorem window_le_top {prog q r : Program} {m n top : Mark} {tree : CallTree}
    {names : List String} (hunf : Unfolds prog tree) (hwater : highWater q m tree = .ok n)
    (htop : Topping q n [] names r top) {label : String}
    (hlabel : tree.Occurs label ∨ label ∈ names) {f : Function} (hf : r.find? label = some f)
    (file : File) : (f.window file).base + (f.window file).count ≤ top.at file := by
  by_cases hname : label ∈ names
  · obtain ⟨g, hg, hbetween⟩ := htop.between label hname List.not_mem_nil
    rw [hf] at hg
    cases hg
    exact (hbetween file).2
  · have hoccurs : tree.Occurs label := hlabel.resolve_right hname
    rw [htop.others label (.inr hname)] at hf
    have hcover := (highWater_eq_ok hwater file).2 label
      ((Calls.mem_discovery_iff hunf).mpr hoccurs) f hf
    exact Nat.le_trans hcover (htop.le file)

section Range

/-- Both numbers of the mark are words. -/
def Mark.InRange (m : Mark) : Prop :=
  ∀ file, m.at file < wordLimit

/-- A mark that covers a function is in range. -/
theorem Mark.InRange.cover {m n : Mark} {f : Function} (hm : m.InRange) (h : m.cover f = .ok n) :
    n.InRange := by
  obtain ⟨registers, hregisters, h⟩ := bind_eq_ok.mp h
  obtain ⟨bits, hbits, h⟩ := bind_eq_ok.mp h
  cases h
  obtain ⟨hr, rfl⟩ := checkWord_eq_ok.mp hregisters
  obtain ⟨hb, rfl⟩ := checkWord_eq_ok.mp hbits
  intro file
  cases file with
  | register => exact Nat.max_lt.mpr ⟨hm .register, hr⟩
  | bit => exact Nat.max_lt.mpr ⟨hm .bit, hb⟩

theorem Mark.InRange.highWater {p : Program} {m n : Mark} {tree : CallTree} (hm : m.InRange)
    (h : Storage.highWater p m tree = .ok n) : n.InRange :=
  foldlM_keeps Mark.InRange (fun _ _ _ _ hm hcover => hm.cover hcover) hm h

/-- The top of the handlers is in range. -/
theorem Mark.InRange.stackHandlers :
    ∀ {handlers : List (Nat × CallTree)} {placed : List String} {p q : Program} {m n : Mark},
      m.InRange → Storage.stackHandlers p m placed handlers = .ok (q, n) → n.InRange
  | [], _, _, _, _, _, hm, h => by
    cases h
    exact hm
  | (_, tree) :: rest, placed, p, q, m, n, hm, h => by
    rw [Storage.stackHandlers] at h
    split at h
    · exact hm.stackHandlers h
    · obtain ⟨mid, _, h⟩ := bind_eq_ok.mp h
      obtain ⟨k, hk, h⟩ := bind_eq_ok.mp h
      exact (hm.highWater hk).stackHandlers h

end Range

/-- What is in the windows of a function that moves is in them as before. -/
theorem SlotsFit.sameBut {f g : Function} (h : SlotsFit f) (hsame : SameBut f g) : SlotsFit g := by
  have hcounts : (fun file => (g.window file).count) = fun file => (f.window file).count :=
    funext hsame.count_eq
  obtain ⟨registers, bits, hg⟩ := hsame
  rw [SlotsFit, hcounts, hg]
  exact h

end Storage

/-- What the phases before the allocation made of a program. -/
structure Prepared (model : Model.Program) (simple : Program) (forest : Forest) : Prop where
  flattened : ∃ flat, Program.ofModel model = .ok flat ∧ flat.simplify = .ok simple
  forest_eq : Forest.build model simple = .ok forest

/-- The globals have their addresses and the functions their frames. -/
structure Storage.Framed (model : Model.Program) (simple : Program) (forest : Forest)
    (framed : Program) : Prop where
  placed : ∃ constants cursors, placeConstants model = .ok constants ∧
    placeVariables model forest constants.addresses = .ok cursors ∧
    frames model cursors.addresses simple forest.reachable = .ok framed

/-- The windows of the functions that are active together end out of range. -/
def Storage.WindowsOverflow (model : Model.Program) (simple framed : Program) : Prop :=
  ∃ file chain, CallChain simple model.entry chain ∧
    wordLimit ≤ behindGlobals model file + cellsOf framed file (chain ++ model.vectors.installed)

namespace Prepared

open Storage (Framed WindowsOverflow behindGlobals cellsOf)

variable {model : Model.Program} {simple : Program} {forest : Forest}
  (h : Prepared model simple forest)
include h

theorem rooted : Forest.Rooted model simple forest :=
  Calls.Forest.rooted_of_build h.forest_eq

/-- The installed handlers are the roots of the handlers' trees. -/
theorem mem_installed {name : String} :
    name ∈ model.vectors.installed ↔ name ∈ forest.interrupts.map (·.2.name) := by
  rw [Model.Vectors.installed, Calls.mem_distinct, ← h.rooted.names, List.map_map]
  rfl

theorem lineage {label : String} {f : Function} (hf : simple.find? label = some f) :
    Nonempty (Lineage model label f) := by
  obtain ⟨flat, hflat, hsimple⟩ := h.flattened
  exact exists_lineage hflat hsimple hf

/-- **Frames never trap.** -/
theorem frames_ne_trap (globals : Table Nat) :
    FailsOnly (· ≠ .trap) (Storage.frames model globals simple forest.reachable) := by
  have hadmits : Admits (· ≠ .trap) := ⟨fun _ => by simp, fun _ => by simp [Storage.faultAt]⟩
  refine Storage.failsOnly_frames hadmits model globals (Calls.nodup_distinct _)
    fun label _ f hf => .inr ?_
  obtain ⟨l⟩ := h.lineage hf
  exact l.closed

/-- Every function that is reached has a frame, with windows that start at 0 and hold its
slots. -/
theorem find?_framed {framed : Program} (hframed : Framed model simple forest framed)
    {label : String} (hlabel : label ∈ forest.reachable) :
    ∃ g, framed.find? label = some g ∧ (∀ file, (g.window file).base = 0) ∧ Storage.SlotsFit g := by
  obtain ⟨_, _, _, _, hframes⟩ := hframed.placed
  obtain ⟨source, f, g, _, hf, hframe, hg⟩ :=
    (Storage.find?_frames (Calls.nodup_distinct _) hframes).1 label hlabel
  obtain ⟨l⟩ := h.lineage hf
  have hsimple := l.simple_eq
  exact ⟨g, hg, Storage.base_of_frame hframe (by rw [hsimple]) (by rw [hsimple]),
    Storage.slotsFit_of_frame hframe (by rw [hsimple]) l.unresolved⟩

/-- A function of the main line has a frame, with windows that start at 0. -/
theorem find?_main {framed : Program} (hframed : Framed model simple forest framed) {name : String}
    (hname : forest.main.Occurs name) : ∃ g, framed.find? name = some g ∧
      ∀ file, (g.window file).base = 0 := by
  obtain ⟨g, hg, hlow, _⟩ := h.find?_framed hframed (h.rooted.mem_reachable_iff.mpr (.inl hname))
  exact ⟨g, hg, hlow⟩

section Stacking

variable {framed stacked raised : Program} (hframed : Framed model simple forest framed)
  {start mainLine top : Storage.Mark}
  (hstart : ∀ file, start.at file = behindGlobals model file)
include hframed hstart

omit hframed in
/-- A call chain of the main line that ends out of range is an overflow of windows. -/
theorem windowsOverflow_of_chain {file : File} {chain : List String}
    (hchain : CallChain simple forest.main.name chain)
    (hlimit : wordLimit ≤ start.at file + cellsOf framed file chain) :
    WindowsOverflow model simple framed := by
  refine ⟨file, chain, h.rooted.main_name ▸ hchain, ?_⟩
  rw [Storage.cellsOf_append, ← hstart]
  omega

theorem trapFor_stack : FailsOnly (TrapFor (WindowsOverflow model simple framed))
    (Storage.stack framed start forest.main) := by
  refine Storage.failsOnly_stack_chains h.rooted.main_unfolds (fun name hname => ?_)
    fun file chain hchain hlimit => ⟨rfl, h.windowsOverflow_of_chain hstart hchain hlimit⟩
  obtain ⟨g, hg, _⟩ := h.find?_main hframed hname
  exact ⟨g, hg⟩

variable (hstacked : Storage.stack framed start forest.main = .ok stacked)
include hstacked

/-- The end of the main line is found unless windows overflow. -/
theorem trapFor_highWater : FailsOnly (TrapFor (WindowsOverflow model simple framed))
    (Storage.highWater stacked start forest.main) :=
  Storage.failsOnly_highWater_chains (Storage.raising_of_stack hstacked) h.rooted.main_unfolds
    (fun _ hname => h.find?_main hframed hname)
    fun _ _ hchain hlimit => ⟨rfl, h.windowsOverflow_of_chain hstart hchain hlimit⟩

variable (hmain : Storage.highWater stacked start forest.main = .ok mainLine)
include hmain

/-- Handlers on top of the main line that end out of range are an overflow of windows: the main
line ends where a call chain does. -/
theorem windowsOverflow_of_handlers {file : File} {names : List String} (hnodup : names.Nodup)
    (hnames : ∀ name ∈ names, name ∈ model.vectors.installed)
    (hlimit : wordLimit ≤ mainLine.at file + cellsOf stacked file names) :
    WindowsOverflow model simple framed := by
  have hraise := Storage.raising_of_stack hstacked
  obtain ⟨⟨chain, hchain, hmark⟩, _⟩ := Storage.isGreatest_highWater hraise h.rooted.main_unfolds
    (fun _ hname => h.find?_main hframed hname) hmain file
  have hle : cellsOf framed file names ≤ cellsOf framed file model.vectors.installed :=
    Storage.cellsOf_le hnodup hnames
  rw [Storage.cellsOf_congr hraise.sizes_eq] at hlimit
  refine ⟨file, chain, h.rooted.main_name ▸ hchain, ?_⟩
  rw [Storage.cellsOf_append, ← hstart]
  omega

omit hstart in
/-- Handlers start at or below the end of the main line. -/
theorem handlers_startBelow : ∀ k ∈ forest.interrupts,
    Storage.StartsBelow stacked mainLine [] k.2.name := by
  intro k hk
  obtain ⟨g, hg, hlow, _⟩ :=
    h.find?_framed hframed (h.rooted.mem_reachable_iff.mpr (.inr ⟨k, hk, rfl⟩))
  exact Storage.startsBelow_highWater (Storage.raising_of_stack hstacked) h.rooted.main_unfolds
    hmain hg hlow

theorem trapFor_stackHandlers : FailsOnly (TrapFor (WindowsOverflow model simple framed))
    (Storage.stackHandlers stacked mainLine [] forest.interrupts) :=
  Storage.failsOnly_stackHandlers (fun _ hk => h.rooted.handler_eq hk)
    (h.handlers_startBelow hframed hstacked hmain) fun _ _ hnodup hnames hlimit =>
      ⟨rfl, h.windowsOverflow_of_handlers hframed hstart hstacked hmain hnodup
        (fun name hname => h.mem_installed.mpr (hnames name hname).2) hlimit⟩

variable (hraised : Storage.stackHandlers stacked mainLine [] forest.interrupts = .ok (raised, top))
include hraised

/-- The check of the handlers passes unless windows overflow. -/
theorem trapFor_checkHandlers : FailsOnly (TrapFor (WindowsOverflow model simple framed))
    (Storage.checkHandlers raised mainLine
      (forest.interrupts.flatMap fun k => k.2.discovery)) := by
  have htop := Storage.topping_of_stackHandlers (fun _ hk => h.rooted.handler_eq hk) hraised
  refine Storage.failsOnly_checkHandlers (fun file hlimit => ⟨rfl, ?_⟩)
    fun _ hlabel _ hf file => htop.le_base h.rooted hlabel hf file
  exact h.windowsOverflow_of_handlers hframed hstart hstacked hmain List.nodup_nil
    (fun _ hname => by cases hname) hlimit

/-- A window that ends out of range is an overflow of windows, since the top is where all
handlers on the main line end. -/
theorem windowsOverflow_of_window {label : String} (hlabel : label ∈ forest.reachable)
    {f : Function} (hf : raised.find? label = some f) {file : File}
    (hlimit : wordLimit ≤ (f.window file).base + (f.window file).count) :
    WindowsOverflow model simple framed := by
  have hleaf : ∀ k ∈ forest.interrupts, k.2 = .node k.2.name [] :=
    fun _ hk => h.rooted.handler_eq hk
  have hwhere : forest.main.Occurs label ∨ label ∈ forest.interrupts.map (·.2.name) := by
    rcases h.rooted.mem_reachable_iff.mp hlabel with hoccurs | ⟨k, hk, rfl⟩
    · exact .inl hoccurs
    · exact .inr (List.mem_map_of_mem hk)
  have hend := Storage.window_le_top h.rooted.main_unfolds hmain
    (Storage.topping_of_stackHandlers hleaf hraised) hwhere hf file
  obtain ⟨pile, hpile⟩ := Storage.exists_pile hleaf
    (Model.Vectors.pairwise_interrupts h.rooted) (h.handlers_startBelow hframed hstacked hmain)
    hraised
  rw [h.rooted.names] at hpile
  have hperm := Model.Vectors.pile_perm hpile
  have hpiled : wordLimit ≤ mainLine.at file + cellsOf stacked file pile := by
    rw [← hpile.top file]
    exact Nat.le_trans hlimit hend
  exact h.windowsOverflow_of_handlers hframed hstart hstacked hmain
    (hperm.nodup_iff.mpr (Calls.nodup_distinct _)) (fun _ hname => hperm.mem_iff.mp hname) hpiled

/-- Slots get their addresses unless windows overflow. -/
theorem trapFor_anchorAll : FailsOnly (TrapFor (WindowsOverflow model simple framed))
    (Storage.anchorAll raised forest.reachable) := by
  have htop := Storage.topping_of_stackHandlers (fun _ hk => h.rooted.handler_eq hk) hraised
  refine Storage.failsOnly_anchorAll (Calls.nodup_distinct _) fun label hlabel f hf =>
    ⟨.inr ?_, fun file hlimit => ⟨rfl, ?_⟩⟩
  · obtain ⟨g, hg, _, hslots⟩ := h.find?_framed hframed hlabel
    obtain ⟨k, hk, hgk⟩ := (Storage.raising_of_stack hstacked).same label g hg
    obtain ⟨r, hr, hkr⟩ := htop.same label k hk
    rw [hf] at hr
    cases hr
    exact hslots.sameBut (hgk.trans hkr)
  · exact h.windowsOverflow_of_window hframed hstart hstacked hmain hraised hlabel hf hlimit

end Stacking

/-- **Behind the frames an allocation only traps**, and only if windows end out of range. -/
theorem trapFor_allocate {framed : Program} (hframed : Framed model simple forest framed) :
    FailsOnly (TrapFor (WindowsOverflow model simple framed))
      (Storage.allocate model simple forest) := by
  obtain ⟨constants, cursors, hconstants, hcursors, hframes⟩ := hframed.placed
  have hstart : ∀ file, cursors.mark.at file = behindGlobals model file :=
    Storage.cursors_eq_behindGlobals hcursors
  refine .after hconstants (.after hcursors (.after hframes ?_))
  refine (h.trapFor_stack hframed hstart).chain fun stacked hstacked => ?_
  refine (h.trapFor_highWater hframed hstart hstacked).chain fun mainLine hmain => ?_
  refine (h.trapFor_stackHandlers hframed hstart hstacked hmain).chain fun result hraised => ?_
  obtain ⟨raised, top⟩ := result
  refine (h.trapFor_checkHandlers hframed hstart hstacked hmain hraised).bind fun _ => ?_
  exact (h.trapFor_anchorAll hframed hstart hstacked hmain hraised).bind fun _ => .ok _

end Prepared

end Stackless
