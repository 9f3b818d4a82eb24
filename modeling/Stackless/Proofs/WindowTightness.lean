import Mathlib.Algebra.GroupWithZero.Nat
import Mathlib.Data.List.Chain
import Mathlib.Data.List.Nodup
import Mathlib.Data.List.Perm.Basic
import Mathlib.Order.Bounds.Basic
import Stackless.Proofs.CallGraphs
import Stackless.Proofs.GlobalsApart
import Stackless.Proofs.SharedFunctions

/-!
# Windows start as low as they can

The windows of a program are exactly as high as its call chains make them.  A **call chain** goes
from the entry along calls; the functions of a chain are active together, and their windows stand
on one another behind the globals.

* `placedGlobals_perm` — the globals that are placed are all globals, in another order;
* `Standing.exists_chain`, `Standing.of_chain` — a function is put on a mark at a node just if a
  call chain that ends with it comes that high;
* `Raising.isGreatest_base` — a function of the main line starts at the highest of these marks;
* `isGreatest_highWater` — the main line ends where its highest chain does, although only the
  distinct functions are looked at;
* `Pile` — handlers stand on one another in the order of their lowest levels;
* `windows_are_tight` — all of it together.
-/

namespace Stackless

open Flat (Program Function File Directly)
open Calls (CallTree Forest Unfolds)

/-- Functions that call one another in a row, from an entry point on. -/
def Flat.CallChain (p : Program) (entry : String) (chain : List String) : Prop :=
  chain.head? = some entry ∧ chain.IsChain (Directly p)

namespace Storage

open Model (Symbol)
open Flat (CallChain)

/-- How many cells of a file several functions have together. -/
def cellsOf (p : Program) (file : File) (names : List String) : Nat :=
  (names.map fun name => (sizes p name).at file).sum

@[simp]
theorem cellsOf_nil (p : Program) (file : File) : cellsOf p file [] = 0 :=
  rfl

@[simp]
theorem cellsOf_cons (p : Program) (file : File) (name : String) (names : List String) :
    cellsOf p file (name :: names) = (sizes p name).at file + cellsOf p file names :=
  rfl

/-- Functions one after the other have their cells together. -/
theorem cellsOf_append (p : Program) (file : File) (xs ys : List String) :
    cellsOf p file (xs ++ ys) = cellsOf p file xs + cellsOf p file ys := by
  rw [cellsOf, List.map_append, List.sum_append_nat]
  rfl

/-- The order of functions does not matter for their cells. -/
theorem cellsOf_perm {p : Program} {file : File} {xs ys : List String} (h : xs.Perm ys) :
    cellsOf p file xs = cellsOf p file ys :=
  (h.map _).sum_nat

section Globals

/-- The first cell of a file behind scratch and all globals. -/
def behindGlobals (model : Model.Program) (file : File) : Nat :=
  scratch file + ((globals model).map fun g => cellsTaken g.2 file).sum

/-- Placing globals one after another moves a cursor by all that they take. -/
theorem placeAll_mark (file : File) :
    ∀ {gs : List (String × Symbol)} {start c : Cursors}, placeAll start gs = .ok c →
      c.mark.at file = start.mark.at file + (gs.map fun g => cellsTaken g.2 file).sum
  | [], start, c, h => by
    cases h
    rfl
  | g :: gs, start, c, h => by
    obtain ⟨next, hnext, hrest⟩ := bind_eq_ok.mp h
    rw [placeAll_mark file hrest, place_mark hnext file, List.map_cons, List.sum_cons]
    omega

/-- Elements that give nothing can be left out. -/
theorem flatMap_filter {α β : Type} (keep : α → Bool) {give : α → List β} :
    ∀ {xs : List α}, (∀ x ∈ xs, keep x = false → give x = []) →
      (xs.filter keep).flatMap give = xs.flatMap give
  | [], _ => rfl
  | x :: xs, h => by
    have hrest := flatMap_filter keep fun x hx => h x (List.mem_cons_of_mem _ hx)
    cases hkeep : keep x with
    | true => rw [List.filter_cons_of_pos hkeep, List.flatMap_cons, List.flatMap_cons, hrest]
    | false =>
        rw [List.filter_cons_of_neg (by simp [hkeep]), List.flatMap_cons,
          h x List.mem_cons_self hkeep, hrest]
        rfl

/-- The globals of a program are those of its modules. -/
theorem globals_eq (model : Model.Program) :
    globals model = model.modules.keys.flatMap (moduleGlobals model) := by
  rw [Table.keys, List.flatMap_map, globals]
  refine List.flatMap_congr fun m hm => ?_
  rw [moduleGlobals, Table.find?_eq_some.mpr hm]

/-- **The globals that are placed are all globals**, in another order: modules that are come to
first go first, and sums over all globals do not depend on that. -/
theorem placedGlobals_perm (model : Model.Program) (forest : Forest) :
    (placedGlobals model forest).Perm (globals model) := by
  have hkeys : model.modules.keys.Nodup := by
    rw [Table.keys]
    exact List.pairwise_map.mpr (model.modules.ascending.imp
      fun {a b} (hlt : a.1 < b.1) (heq : a.1 = b.1) => String.lt_irrefl _ (heq ▸ hlt))
  have hnodup : (moduleOrder model forest).Nodup := Calls.nodup_distinct _
  have hperm : ((moduleOrder model forest).filter (· ∈ model.modules.keys)).Perm
      model.modules.keys := by
    refine (List.perm_ext_iff_of_nodup (hnodup.filter _) hkeys).mpr fun name => ?_
    rw [List.mem_filter, decide_eq_true_iff]
    refine and_iff_right_of_imp fun hname => ?_
    exact Calls.mem_distinct.mpr (List.mem_append_right _ hname)
  rw [placedGlobals, globals_eq, ← flatMap_filter (· ∈ model.modules.keys)]
  · exact hperm.flatMap_right _
  · intro name _ hname
    cases hfind : model.modules.find? name with
    | none => rw [moduleGlobals, hfind]
    | some m => exact absurd (Calls.mem_keys_of_find? hfind) (of_decide_eq_false hname)

/-- Behind the globals the cursors stand where all globals end. -/
theorem cursors_eq_behindGlobals {model : Model.Program} {forest : Forest} {constants : Table Nat}
    {cursors : Cursors} (h : placeVariables model forest constants = .ok cursors) (file : File) :
    cursors.mark.at file = behindGlobals model file := by
  rw [placeAll_mark file (placeAll_of_placeVariables h), behindGlobals]
  have hsum := ((placedGlobals_perm model forest).map fun g => cellsTaken g.2 file).sum_nat
  rw [hsum]
  cases file with
  | register => rfl
  | bit => rfl

end Globals

section Chains

variable {prog p q : Program} {m : Mark} {tree : CallTree}

/-- **Where a function stands, a chain comes that high.**  By induction on the way down to the node;
the functions above it are the chain. -/
theorem Standing.exists_chain {name : String} {n : Mark} (hunf : Unfolds prog tree)
    (h : Standing (sizes p) m tree name n) :
    ∃ above, CallChain prog tree.name (above ++ [name]) ∧
      ∀ file, n.at file = m.at file + cellsOf p file above := by
  induction h with
  | root => exact ⟨[], ⟨rfl, .singleton _⟩, fun _ => rfl⟩
  | @call m n caller callee calls child hchild _ ih =>
      obtain ⟨above, ⟨hhead, hchain⟩, hmark⟩ := ih (hunf.within (.under hchild .refl))
      refine ⟨caller :: above, ⟨rfl, ?_⟩, fun file => ?_⟩
      · obtain ⟨f, hf, hcalls⟩ := hunf.root
        have hdirect : Directly prog caller child.name :=
          ⟨f, hf, hcalls ▸ List.mem_map_of_mem hchild⟩
        rw [List.cons_append]
        cases hrest : above ++ [callee] with
        | nil => exact .singleton _
        | cons next rest =>
            rw [hrest] at hhead hchain
            cases hhead
            exact .cons_cons hdirect hchain
      · rw [hmark file, Mark.at_plus, cellsOf_cons]
        omega

/-- **Where a chain ends, its last function stands that high.**  By recursion on the chain: the tree
unfolds to every callee that the chain goes on with. -/
theorem Standing.of_chain (p : Program) :
    ∀ {above : List String} {name : String} {m : Mark} {tree : CallTree}, Unfolds prog tree →
      CallChain prog tree.name (above ++ [name]) → ∃ n, Standing (sizes p) m tree name n ∧
        ∀ file, n.at file = m.at file + cellsOf p file above
  | [], name, m, .node label calls, hunf, h => by
    obtain ⟨hhead, _⟩ := h
    cases hhead
    exact ⟨m, .root, fun _ => rfl⟩
  | caller :: above, name, m, .node label calls, hunf, h => by
    obtain ⟨hhead, hchain⟩ := h
    cases hhead
    rw [List.cons_append] at hchain
    cases hrest : above ++ [name] with
    | nil => simp at hrest
    | cons next rest =>
        rw [hrest] at hchain
        obtain ⟨⟨f, hf, hmem⟩, hchain⟩ := List.isChain_cons_cons.mp hchain
        obtain ⟨child, hchild, rfl⟩ := hunf.exists_child hf hmem
        obtain ⟨n, hn, hmark⟩ := Standing.of_chain p (m := m.plus (sizes p label))
          (hunf.within (.under hchild .refl)) ⟨by rw [hrest]; rfl, by rw [hrest]; exact hchain⟩
        refine ⟨n, .call hchild hn, fun file => ?_⟩
        rw [hmark file, Mark.at_plus]
        exact Nat.add_assoc _ _ _

/-- **A function starts at the highest mark that it is put on.**  It is raised to every mark that it
is put on, and to nothing else, so the maximum over all chains is attained. -/
theorem Raising.isGreatest_base (h : Raising p m [tree] q) (hunf : Unfolds prog tree)
    {name : String} {f g : Function} (hoccurs : tree.Occurs name) (hf : p.find? name = some f)
    (hg : q.find? name = some g) (file : File) (hlow : (f.window file).base = 0) :
    IsGreatest {n | ∃ above, CallChain prog tree.name (above ++ [name]) ∧
      n = m.at file + cellsOf p file above} (g.window file).base := by
  have hreach := h.reaches tree (List.mem_singleton_self tree) name
  constructor
  · -- the base is a mark of the function, also if it is 0 and was never raised
    have hattains : ∃ n, Standing (sizes p) m tree name n ∧ (g.window file).base = n.at file := by
      rcases h.attains name f g hf hg file with hkept | ⟨t, ht, n, hn, hbase⟩
      · obtain ⟨t, ht, rfl⟩ := hoccurs
        obtain ⟨n, hn⟩ := Standing.exists_of_within (sizes p) ht m
        have hle := hreach n hn g hg file
        exact ⟨n, hn, by omega⟩
      · rw [List.mem_singleton.mp ht] at hn
        exact ⟨n, hn, hbase⟩
    obtain ⟨n, hn, hbase⟩ := hattains
    obtain ⟨above, hchain, hmark⟩ := hn.exists_chain hunf
    exact ⟨above, hchain, hbase.trans (hmark file)⟩
  · rintro _ ⟨above, hchain, rfl⟩
    obtain ⟨n, hn, hmark⟩ := Standing.of_chain p (m := m) hunf hchain
    rw [← hmark file]
    exact hreach n hn g hg file

/-- A mark that covers functions is the old one or the end of one of their windows. -/
theorem foldlM_cover_attained (file : File) :
    ∀ {fs : List Function} {m n : Mark}, fs.foldlM Mark.cover m = .ok n →
      n.at file = m.at file ∨
        ∃ f ∈ fs, n.at file = (f.window file).base + (f.window file).count
  | [], m, n, h => by
    cases h
    exact .inl rfl
  | f :: fs, m, n, h => by
    obtain ⟨mid, hmid, hrest⟩ := bind_eq_ok.mp h
    rcases foldlM_cover_attained file hrest with heq | ⟨g, hg, heq⟩
    · have hcover : mid.at file = m.at file ∨
          mid.at file = (f.window file).base + (f.window file).count := by
        obtain ⟨registers, hregisters, hmid⟩ := bind_eq_ok.mp hmid
        obtain ⟨bits, hbits, hmid⟩ := bind_eq_ok.mp hmid
        cases hmid
        have hr := Flat.Window.upper_eq_ok hregisters
        have hb := Flat.Window.upper_eq_ok hbits
        cases file with
        | register => simp only [Mark.at, Function.window]; omega
        | bit => simp only [Mark.at, Function.window]; omega
      rcases hcover with hmid | hmid
      · exact .inl (heq.trans hmid)
      · exact .inr ⟨f, List.mem_cons_self, heq.trans hmid⟩
    · exact .inr ⟨g, List.mem_cons_of_mem _ hg, heq⟩

/-- **The main line ends where its highest chain does.**  The high-water mark looks at functions and
not at chains, and the highest of them ends where some chain does. -/
theorem isGreatest_highWater {n : Mark} (h : Raising p m [tree] q) (hunf : Unfolds prog tree)
    (hframes : ∀ name, tree.Occurs name →
      ∃ f, p.find? name = some f ∧ ∀ file, (f.window file).base = 0)
    (hwater : highWater q m tree = .ok n) (file : File) :
    IsGreatest {k | ∃ chain, CallChain prog tree.name chain ∧
      k = m.at file + cellsOf p file chain} (n.at file) := by
  have hcovers := (highWater_eq_ok hwater file).2
  have hchains : ∀ chain, CallChain prog tree.name chain →
      m.at file + cellsOf p file chain ≤ n.at file := by
    intro chain hchain
    rcases List.eq_nil_or_concat' chain with rfl | ⟨above, name, rfl⟩
    · cases hchain.1
    · obtain ⟨k, hk, _⟩ := Standing.of_chain p (m := m) hunf hchain
      obtain ⟨f, hf, hlow⟩ := hframes name hk.occurs
      obtain ⟨g, hg, hsame⟩ := h.same name f hf
      have hbase := (h.isGreatest_base hunf hk.occurs hf hg file (hlow file)).2 ⟨above, hchain, rfl⟩
      have hend := hcovers name ((Calls.mem_discovery_iff hunf).mpr hk.occurs) g hg
      rw [hsame.count_eq, ← at_sizes hf] at hend
      rw [cellsOf_append, cellsOf_cons, cellsOf_nil]
      omega
  refine ⟨?_, fun _ hmem => ?_⟩
  · rcases foldlM_cover_attained file hwater with hmark | ⟨g, hmem, hmark⟩
    · -- a main line without cells
      have hroot : CallChain prog tree.name [tree.name] := ⟨rfl, .singleton _⟩
      have hle := hchains _ hroot
      exact ⟨_, hroot, by omega⟩
    · obtain ⟨name, hname, hg⟩ := List.mem_filterMap.mp hmem
      have hoccurs := (Calls.mem_discovery_iff hunf).mp hname
      obtain ⟨f, hf, hlow⟩ := hframes name hoccurs
      obtain ⟨g', hg', hsame⟩ := h.same name f hf
      rw [hg] at hg'
      cases hg'
      obtain ⟨above, hchain, hbase⟩ :=
        (h.isGreatest_base hunf hoccurs hf hg file (hlow file)).1
      refine ⟨above ++ [name], hchain, ?_⟩
      rw [cellsOf_append, cellsOf_cons, cellsOf_nil, hmark, hbase, hsame.count_eq, ← at_sizes hf]
      omega
  · obtain ⟨chain, hchain, rfl⟩ := hmem
    exact hchains chain hchain

end Chains

section Handlers

/-- One handler is installed at a level below all levels of another. -/
def Precedes (handlers : List (Nat × String)) (a b : String) : Prop :=
  ∃ low, (low, a) ∈ handlers ∧ ∀ level, (level, b) ∈ handlers → low < level

/-- A handler in front changes nothing for others. -/
theorem Precedes.cons {handlers : List (Nat × String)} {a b : String} {h : Nat × String}
    (hab : Precedes handlers a b) (hne : h.2 ≠ b) : Precedes (h :: handlers) a b := by
  obtain ⟨low, hmem, hall⟩ := hab
  refine ⟨low, List.mem_cons_of_mem _ hmem, fun level hlevel => ?_⟩
  rcases List.mem_cons.mp hlevel with rfl | hlevel
  · exact absurd rfl hne
  · exact hall level hlevel

/-- The handlers of a list that were not placed before, in the order in which they are piled up on
a mark. -/
structure Pile (p : Program) (m : Mark) (placed : List String) (handlers : List (Nat × String))
    (q : Program) (n : Mark) (pile : List String) : Prop where
  mem_iff : ∀ name, name ∈ pile ↔ (∃ level, (level, name) ∈ handlers) ∧ name ∉ placed
  ordered : pile.Pairwise (Precedes handlers)
  top : ∀ file, n.at file = m.at file + cellsOf p file pile
  base : ∀ below name above, pile = below ++ name :: above →
    ∃ g, q.find? name = some g ∧
      ∀ file, (g.window file).base = m.at file + cellsOf p file below

namespace Pile

variable {p mid q : Program} {m k n : Mark} {placed pile : List String}
  {handlers : List (Nat × String)} {level : Nat} {name : String}

/-- A handler that was placed before is passed over. -/
theorem skip (h : Pile p m placed handlers q n pile) (hplaced : name ∈ placed) :
    Pile p m placed ((level, name) :: handlers) q n pile where
  mem_iff := by
    intro other
    rw [h.mem_iff other]
    refine and_congr_left fun hnew => ?_
    have hne : other ≠ name := fun heq => hnew (heq ▸ hplaced)
    simp [hne]
  ordered := by
    refine h.ordered.imp_of_mem fun _ hb hab => hab.cons fun heq => ?_
    exact ((h.mem_iff _).mp hb).2 (heq ▸ hplaced)
  top := h.top
  base := h.base

/-- A new handler is at the bottom of the pile. -/
theorem push (h : Pile mid k (placed ++ [name]) handlers q n pile) (hnew : name ∉ placed)
    (hlow : ∀ h ∈ handlers, level < h.1) (hsizes : sizes mid = sizes p)
    (hmark : ∀ file, k.at file = m.at file + (sizes p name).at file)
    (hbase : ∃ g, q.find? name = some g ∧ ∀ file, (g.window file).base = m.at file) :
    Pile p m placed ((level, name) :: handlers) q n (name :: pile) where
  mem_iff := by
    intro other
    rw [List.mem_cons, h.mem_iff other]
    by_cases heq : other = name
    · subst heq
      simp [hnew]
    · simp [heq]
  ordered := by
    refine List.pairwise_cons.mpr ⟨fun b hb => ⟨level, List.mem_cons_self, ?_⟩, ?_⟩
    · intro other hother
      rcases List.mem_cons.mp hother with heq | hother
      · cases heq
        exact absurd (List.mem_append_right _ (List.mem_singleton_self name))
          ((h.mem_iff name).mp hb).2
      · exact hlow _ hother
    · refine h.ordered.imp_of_mem fun _ hb hab => hab.cons fun heq => ?_
      exact ((h.mem_iff _).mp hb).2 (heq ▸ List.mem_append_right _ (List.mem_singleton_self name))
  top := by
    intro file
    rw [h.top file, hmark file, cellsOf_cons, cellsOf, cellsOf, hsizes]
    omega
  base := by
    intro below other above hsplit
    cases below with
    | nil =>
        cases hsplit
        exact hbase
    | cons first below =>
        rw [List.cons_append] at hsplit
        obtain ⟨rfl, hrest⟩ := List.cons.inj hsplit
        obtain ⟨g, hg, hwindow⟩ := h.base below other above hrest
        refine ⟨g, hg, fun file => ?_⟩
        rw [hwindow file, hmark file, cellsOf_cons, cellsOf, cellsOf, hsizes]
        omega

end Pile

/-- A function without calls is found where its tree is. -/
theorem discovery_single (name : String) : (CallTree.node name []).discovery = [name] := by
  simp [CallTree.discovery, CallTree.discoverFrom]

/-- A function that is put on a mark by itself starts at the mark. -/
theorem single_window {p mid : Program} {m : Mark} {name : String} {f : Function}
    (hraise : Raising p m [.node name []] mid) (hf : p.find? name = some f)
    (hlow : ∀ file, (f.window file).base ≤ m.at file) :
    ∃ g, mid.find? name = some g ∧ ∀ file, (g.window file).base = m.at file ∧
      (g.window file).count = (sizes p name).at file := by
  obtain ⟨g, hg, hsame⟩ := hraise.same name f hf
  refine ⟨g, hg, fun file => ⟨?_, (hsame.count_eq file).trans (at_sizes hf file).symm⟩⟩
  have hle := hraise.reaches _ (List.mem_singleton_self _) name m .root g hg file
  have hlow := hlow file
  rcases hraise.attains name f g hf hg file with hkept | ⟨t, ht, n, hn, heq⟩
  · omega
  · rw [List.mem_singleton.mp ht] at hn
    cases hn with
    | root => exact heq
    | call hchild _ => cases hchild

/-- A function that is put on a mark by itself starts at the mark and ends at the next. -/
theorem single_exact {p mid : Program} {m k : Mark} {name : String} {f : Function}
    (hraise : Raising p m [.node name []] mid) (hf : p.find? name = some f)
    (hlow : ∀ file, (f.window file).base ≤ m.at file)
    (hwater : highWater mid m (.node name []) = .ok k) :
    (∃ g, mid.find? name = some g ∧ ∀ file, (g.window file).base = m.at file) ∧
      ∀ file, k.at file = m.at file + (sizes p name).at file := by
  obtain ⟨g, hg, hwindow⟩ := single_window hraise hf hlow
  refine ⟨⟨g, hg, fun file => (hwindow file).1⟩, fun file => ?_⟩
  obtain ⟨hbase, hcount⟩ := hwindow file
  have hcover := (highWater_eq_ok hwater file).2 name
    (by rw [discovery_single]; exact List.mem_cons_self) g hg
  rcases foldlM_cover_attained file hwater with heq | ⟨g', hmem, heq⟩
  · omega
  · rw [discovery_single] at hmem
    obtain ⟨name', hname', hg'⟩ := List.mem_filterMap.mp hmem
    rw [List.mem_singleton.mp hname', hg] at hg'
    cases hg'
    omega

/-- The function is found, and starts at or below the mark unless it was placed before. -/
def StartsBelow (p : Program) (m : Mark) (placed : List String) (name : String) : Prop :=
  ∃ f, p.find? name = some f ∧ (name ∉ placed → ∀ file, (f.window file).base ≤ m.at file)

/-- What the main line holds or leaves alone starts at or below its end. -/
theorem startsBelow_highWater {prog p q : Program} {m n : Mark} {tree : CallTree} {name : String}
    {f : Function} (hraise : Raising p m [tree] q) (hunf : Unfolds prog tree)
    (hwater : highWater q m tree = .ok n) (hf : p.find? name = some f)
    (hlow : ∀ file, (f.window file).base = 0) : StartsBelow q n [] name := by
  obtain ⟨g, hg, _⟩ := hraise.same name f hf
  refine ⟨g, hg, fun _ file => ?_⟩
  rcases hraise.attains name f g hf hg file with hkept | ⟨t, ht, k, hstands, _⟩
  · rw [hkept, hlow file]
    exact Nat.zero_le _
  · rw [List.mem_singleton.mp ht] at hstands
    have hdisc := (Calls.mem_discovery_iff hunf).mpr hstands.occurs
    have hcover := (highWater_eq_ok hwater file).2 name hdisc g hg
    omega

/-- What starts below the mark starts below it when one function was put there. -/
theorem StartsBelow.next {p mid : Program} {m k : Mark} {placed : List String} {name other : String}
    (h : StartsBelow p m placed other) (hraise : Raising p m [.node name []] mid)
    (hle : ∀ file, m.at file ≤ k.at file) : StartsBelow mid k (placed ++ [name]) other := by
  obtain ⟨f, hf, hbelow⟩ := h
  by_cases hother : other = name
  · obtain ⟨g, hg, _⟩ := hraise.same other f hf
    refine ⟨g, hg, fun hnew => absurd (List.mem_append_right _ ?_) hnew⟩
    rw [hother]
    exact List.mem_cons_self
  · refine ⟨f, (hraise.find?_of_ne hother).trans hf, fun hnew file => ?_⟩
    have hfresh : other ∉ placed := fun hin => hnew (List.mem_append_left _ hin)
    exact Nat.le_trans (hbelow hfresh file) (hle file)

/-- **Handlers are piled up**, each where the one before ends. -/
theorem exists_pile :
    ∀ {handlers : List (Nat × CallTree)} {placed : List String} {p q : Program} {m n : Mark},
      (∀ h ∈ handlers, h.2 = .node h.2.name []) → handlers.Pairwise (fun h k => h.1 < k.1) →
      (∀ h ∈ handlers, StartsBelow p m placed h.2.name) →
      stackHandlers p m placed handlers = .ok (q, n) →
      ∃ pile, Pile p m placed (handlers.map fun h => (h.1, h.2.name)) q n pile
  | [], placed, p, q, m, n, _, _, _, h => by
    cases h
    refine ⟨[], ?_, .nil, fun _ => rfl, ?_⟩
    · intro name
      simp
    · intro below name above hsplit
      cases below with
      | nil => cases hsplit
      | cons => cases hsplit
  | (level, tree) :: rest, placed, p, q, m, n, hsingle, hlevels, hlow, h => by
    have hsingle' : ∀ h ∈ rest, h.2 = .node h.2.name [] := fun h hh =>
      hsingle h (List.mem_cons_of_mem _ hh)
    obtain ⟨hfirst, hordered⟩ := List.pairwise_cons.mp hlevels
    rw [stackHandlers] at h
    split at h
    · rename_i hplaced
      obtain ⟨pile, hpile⟩ := exists_pile hsingle' hordered
        (fun h hh => hlow h (List.mem_cons_of_mem _ hh)) h
      exact ⟨pile, hpile.skip hplaced⟩
    · rename_i hnew
      obtain ⟨mid, hmid, hwater⟩ := bind_eq_ok.mp h
      obtain ⟨k, hk, hrest⟩ := bind_eq_ok.mp hwater
      obtain ⟨f, hf, hbelow⟩ := hlow (level, tree) List.mem_cons_self
      have hraise := raising_of_stack hmid
      have hnode : tree = .node tree.name [] := hsingle (level, tree) List.mem_cons_self
      rw [hnode] at hraise hk
      obtain ⟨⟨g, hg, hbase⟩, hmark⟩ := single_exact hraise hf (hbelow hnew) hk
      have hnext : ∀ h ∈ rest, StartsBelow mid k (placed ++ [tree.name]) h.2.name := fun h hh =>
        (hlow h (List.mem_cons_of_mem _ hh)).next hraise fun file => (highWater_eq_ok hk file).1
      obtain ⟨pile, hpile⟩ := exists_pile hsingle' hordered hnext hrest
      have hkept := (topping_of_stackHandlers hsingle' hrest).others tree.name
        (.inl (List.mem_append_right _ (List.mem_singleton_self _)))
      refine ⟨tree.name :: pile,
        hpile.push hnew ?_ hraise.sizes_eq hmark ⟨g, hkept.trans hg, hbase⟩⟩
      intro r hr
      obtain ⟨h, hh, rfl⟩ := List.mem_map.mp hr
      exact hfirst h hh

end Handlers

end Storage

namespace Model.Vectors

/-- The installed handlers, each once. -/
def installed (v : Vectors) : List String :=
  Calls.distinct (v.handlers.map (·.2))

/-- The lowest level of an installed handler. -/
def lowest (v : Vectors) (label : String) : Nat :=
  v.levels.findIdx (· == some label) + 1

variable {v : Vectors}

/-- What is installed is the handler of a level. -/
theorem mem_installed {label : String} : label ∈ v.installed ↔ ∃ level, v.get level = some label := by
  rw [installed, Calls.mem_distinct, List.mem_map]
  constructor
  · rintro ⟨⟨level, _⟩, hmem, rfl⟩
    exact ⟨level, mem_handlers_iff.mp hmem⟩
  · rintro ⟨level, hlevel⟩
    exact ⟨(level, label), mem_handlers_iff.mpr hlevel, rfl⟩

/-- The lowest level is one of the levels, and below all others. -/
theorem isLeast_lowest {level : Nat} {label : String} (h : v.get level = some label) :
    IsLeast {level | v.get level = some label} (v.lowest label) := by
  have hget : ∀ n, v.get (n + 1) = some label ↔ v.levels[n]? = some (some label) := fun n =>
    Option.join_eq_some_iff
  have hfirst : ∀ n, v.levels[n]? = some (some label) →
      v.levels.findIdx (· == some label) ≤ n := by
    intro n hn
    obtain ⟨hlt, hn⟩ := List.getElem?_eq_some_iff.mp hn
    by_contra hle
    have hother := List.not_of_lt_findIdx (Nat.lt_of_not_le hle)
    simp [hn] at hother
  cases level with
  | zero => cases h
  | succ n =>
      have hn := (hget n).mp h
      have hlt : v.levels.findIdx (· == some label) < v.levels.length :=
        Nat.lt_of_le_of_lt (hfirst n hn) (List.getElem?_eq_some_iff.mp hn).1
      refine ⟨(hget _).mpr ?_, fun other hother => ?_⟩
      · have hat := List.findIdx_getElem (w := hlt)
        rw [List.getElem?_eq_getElem hlt, eq_of_beq hat]
      · cases other with
        | zero => cases hother
        | succ k => exact Nat.succ_le_succ (hfirst k ((hget k).mp hother))

/-- The handlers' trees are in the order of their levels. -/
theorem pairwise_interrupts {model : Model.Program} {p : Flat.Program} {forest : Forest}
    (h : Forest.Rooted model p forest) : forest.interrupts.Pairwise fun h k => h.1 < k.1 := by
  have hlevels := model.vectors.pairwise_handlers
  rw [← h.names] at hlevels
  simpa only [List.pairwise_map] using hlevels

/-- One handler precedes another just if its lowest level is lower. -/
theorem precedes_iff {a b : String} (ha : a ∈ v.installed) (hb : b ∈ v.installed) :
    Storage.Precedes v.handlers a b ↔ v.lowest a < v.lowest b := by
  obtain ⟨la, ha⟩ := mem_installed.mp ha
  obtain ⟨lb, hb⟩ := mem_installed.mp hb
  have hleastA := isLeast_lowest ha
  have hleastB := isLeast_lowest hb
  constructor
  · rintro ⟨low, hlow, hall⟩
    have hle := hleastA.2 (mem_handlers_iff.mp hlow)
    have hlt := hall _ (mem_handlers_iff.mpr hleastB.1)
    omega
  · intro hlt
    refine ⟨_, mem_handlers_iff.mpr hleastA.1, fun level hlevel => ?_⟩
    have hle := hleastB.2 (mem_handlers_iff.mp hlevel)
    omega

/-- A pile of all handlers has each installed handler once. -/
theorem pile_perm {p q : Flat.Program} {m n : Storage.Mark} {pile : List String}
    (h : Storage.Pile p m [] v.handlers q n pile) : pile.Perm v.installed := by
  have hnodup : pile.Nodup := h.ordered.imp fun {a b} hab (heq : a = b) => by
    obtain ⟨low, hlow, hall⟩ := hab
    exact Nat.lt_irrefl low (hall low (heq ▸ hlow))
  have hinstalled : v.installed.Nodup := Calls.nodup_distinct _
  refine (List.perm_ext_iff_of_nodup hnodup hinstalled).mpr fun name => ?_
  rw [h.mem_iff, mem_installed]
  simp only [mem_handlers_iff, List.not_mem_nil, not_false_eq_true, and_true]

end Model.Vectors

namespace Stages

open Flat (CallChain)
open Storage (cellsOf sizes behindGlobals)

variable {model : Model.Program} {c : Compilation} (s : Stages model c)
include s

/-- In the end functions have as many slots as in their frames. -/
theorem sizes_final {label : String} (h : label ∈ c.forest.reachable) :
    sizes c.program label = sizes s.storage.framed label := by
  obtain ⟨g, k, r, F, hg, _, hr, hgk, hkr, _, hF⟩ := s.find?_final h
  obtain ⟨F', hF', hwindow⟩ := s.window_final h hr
  rw [hF] at hF'
  cases hF'
  have hcount : ∀ file, (F.window file).count = (g.window file).count := fun file => by
    rw [hwindow, (hgk.trans hkr).count_eq]
  have hregisters := hcount .register
  have hbits := hcount .bit
  simp only [Flat.Function.window] at hregisters hbits
  simp only [sizes, hg, hF, hregisters, hbits]

theorem cellsOf_final {names : List String} (h : ∀ name ∈ names, name ∈ c.forest.reachable)
    (file : File) : cellsOf c.program file names = cellsOf s.storage.framed file names := by
  refine congrArg List.sum (List.map_congr_left fun name hname => ?_)
  rw [s.sizes_final (h name hname)]

/-- The functions of a call chain are reached. -/
theorem reachable_of_chain {chain : List String} (h : CallChain s.simple model.entry chain) :
    ∀ name ∈ chain, name ∈ c.forest.reachable := by
  intro name hname
  obtain ⟨before, after, rfl⟩ := List.append_of_mem hname
  obtain ⟨hhead, hchain⟩ := h
  have hprefix : CallChain s.simple c.forest.main.name (before ++ [name]) := by
    refine ⟨?_, ?_⟩
    · rw [s.rooted.main_name, ← hhead]
      cases before with
      | nil => rfl
      | cons => rfl
    · rw [List.append_cons] at hchain
      exact hchain.left_of_append
  obtain ⟨_, hstands, _⟩ := Storage.Standing.of_chain s.storage.framed (m := s.storage.free)
    s.rooted.main_unfolds hprefix
  exact s.reachable_of_occurs hstands.occurs

theorem free_eq (file : File) : s.storage.free.at file = behindGlobals model file :=
  Storage.cursors_eq_behindGlobals s.storage.cursors_eq file

/-- **Functions of the main line start where the highest chain above them ends.**  Handlers do not
matter here, if the entry point is none. -/
theorem isGreatest_base (hentry : ∀ level, model.vectors.get level ≠ some model.entry) {f : String}
    (hf : c.forest.main.Occurs f) (file : File) :
    ∃ F, c.program.find? f = some F ∧
      IsGreatest {n | ∃ above, CallChain s.simple model.entry (above ++ [f]) ∧
        n = behindGlobals model file + cellsOf c.program file above} (F.window file).base := by
  have hreached := s.reachable_of_occurs hf
  obtain ⟨_, _, g, _, _, _, hg, hlow⟩ := s.find?_framed hreached
  obtain ⟨_, k, r, _, _, hk, hr, _⟩ := s.find?_final hreached
  obtain ⟨F, hF, hwindow⟩ := s.window_final hreached hr
  have hapart : f ∉ handlerNames c.forest := by
    intro hmem
    obtain ⟨t, ht, rfl⟩ := List.mem_map.mp hmem
    exact (Forest.main_apart_iff s.forest_eq).1.mpr hentry _ hf t ht (CallTree.occurs_name _)
  have hsame : r = k := by
    rw [s.topping.others f (.inr hapart), hk] at hr
    exact (Option.some.inj hr).symm
  have hgreatest := s.raising.isGreatest_base s.rooted.main_unfolds hf hg hk file (hlow file)
  rw [s.rooted.main_name, s.free_eq] at hgreatest
  have hcells : ∀ above, CallChain s.simple model.entry (above ++ [f]) →
      cellsOf c.program file above = cellsOf s.storage.framed file above := fun above hchain =>
    s.cellsOf_final (fun name hname =>
      s.reachable_of_chain hchain name (List.mem_append_left _ hname)) file
  refine ⟨F, hF, ?_⟩
  rw [hwindow, hsame]
  obtain ⟨⟨above, hchain, hbase⟩, hupper⟩ := hgreatest
  refine ⟨⟨above, hchain, by rw [hcells above hchain]; exact hbase⟩, ?_⟩
  rintro _ ⟨above, hchain, rfl⟩
  rw [hcells above hchain]
  exact hupper ⟨above, hchain, rfl⟩

/-- **The main line ends where its highest chain does.**  It is read off the windows of the final
program, which are no larger or smaller than when they were stacked. -/
theorem isGreatest_mainLine (file : File) :
    IsGreatest {n | ∃ chain, CallChain s.simple model.entry chain ∧
      n = behindGlobals model file + cellsOf c.program file chain} (s.storage.mainLine.at file) := by
  have hgreatest := Storage.isGreatest_highWater s.raising s.rooted.main_unfolds
    (fun name hname => by
    obtain ⟨_, _, g, _, _, _, hg, hlow⟩ := s.find?_framed (s.reachable_of_occurs hname)
    exact ⟨g, hg, hlow⟩) s.storage.mainLine_eq file
  rw [s.rooted.main_name, s.free_eq] at hgreatest
  have hcells : ∀ chain, CallChain s.simple model.entry chain →
      cellsOf c.program file chain = cellsOf s.storage.framed file chain := fun chain hchain =>
    s.cellsOf_final (s.reachable_of_chain hchain) file
  obtain ⟨⟨chain, hchain, hmark⟩, hupper⟩ := hgreatest
  refine ⟨⟨chain, hchain, by rw [hcells chain hchain]; exact hmark⟩, ?_⟩
  rintro _ ⟨chain, hchain, rfl⟩
  rw [hcells chain hchain]
  exact hupper ⟨chain, hchain, rfl⟩

/-- **The handlers are piled up on the main line.** -/
theorem exists_pile :
    ∃ pile, Storage.Pile s.storage.stacked s.storage.mainLine [] model.vectors.handlers
      s.storage.raised s.storage.top pile := by
  have hranks := s.rooted.names
  rw [← hranks]
  refine Storage.exists_pile (fun h hh => s.rooted.handler_eq hh)
    (Model.Vectors.pairwise_interrupts s.rooted) (fun h hh => ?_) s.storage.raised_eq
  have hreached : h.2.name ∈ c.forest.reachable :=
    s.reachable_of_handler (List.mem_map_of_mem hh)
  obtain ⟨_, _, g, _, _, _, hg, hlow⟩ := s.find?_framed hreached
  exact Storage.startsBelow_highWater s.raising s.rooted.main_unfolds s.storage.mainLine_eq hg hlow

/-- A pile has the cells that its functions have in the end. -/
theorem cellsOf_stacked {names : List String}
    (h : ∀ name ∈ names, name ∈ model.vectors.installed) (file : File) :
    cellsOf s.storage.stacked file names = cellsOf c.program file names := by
  rw [s.cellsOf_final (fun name hname => ?_) file, cellsOf, cellsOf, s.raising.sizes_eq]
  obtain ⟨level, hlevel⟩ := Model.Vectors.mem_installed.mp (h name hname)
  exact s.reachable_of_handler (s.mem_handlerNames (Model.Vectors.mem_handlers_iff.mpr hlevel))

/-- **All handlers together end at the top**, which is the total of the file: behind the main line
there are the windows of the handlers and nothing else. -/
theorem top_eq (file : File) : s.storage.top.at file =
    s.storage.mainLine.at file + cellsOf c.program file model.vectors.installed := by
  obtain ⟨pile, hpile⟩ := s.exists_pile
  have hperm := Model.Vectors.pile_perm hpile
  rw [hpile.top, s.cellsOf_stacked fun name hname => hperm.mem_iff.mp hname,
    Storage.cellsOf_perm hperm]

end Stages

/-- What stands in front of a name in the order of ranks is what has a smaller rank. -/
theorem perm_filter_of_pairwise {rank : String → Nat} {below above names : List String}
    {name : String} (hordered : (below ++ name :: above).Pairwise fun a b => rank a < rank b)
    (hnodup : names.Nodup) (hmem : ∀ x, x ∈ below ++ name :: above ↔ x ∈ names) :
    below.Perm (names.filter fun x => rank x < rank name) := by
  obtain ⟨hbelow, hrest, hcross⟩ := List.pairwise_append.mp hordered
  have hbelow' : below.Nodup :=
    hbelow.imp fun {a b} hlt (heq : a = b) => Nat.lt_irrefl _ (heq ▸ hlt)
  refine (List.perm_ext_iff_of_nodup hbelow' (hnodup.filter _)).mpr fun x => ?_
  rw [List.mem_filter, decide_eq_true_iff]
  constructor
  · intro hx
    exact ⟨(hmem x).mp (List.mem_append_left _ hx), hcross x hx name List.mem_cons_self⟩
  · rintro ⟨hx, hlt⟩
    rcases List.mem_append.mp ((hmem x).mpr hx) with hx | hx
    · exact hx
    · rcases List.mem_cons.mp hx with rfl | hx
      · exact absurd hlt (Nat.lt_irrefl _)
      · exact absurd hlt (Nat.lt_asymm ((List.pairwise_cons.mp hrest).1 x hx))

/-- **Windows start as low as they can.**  Take an accepted build whose entry is no handler.  In
both files a function of the main line starts behind the globals and behind the highest of the
call chains from the entry to it, without the function itself.  The main line ends where the
highest call chain ends.  A handler starts there too, behind the handlers whose lowest level is
below its own lowest level; and all handlers together give the total of the file. -/
theorem windows_are_tight {model : Model.Program} {c : Compilation} (h : build model = .ok c)
    (hentry : ∀ level, model.vectors.get level ≠ some model.entry) :
    Nonempty (Stages model c) ∧ ∀ (s : Stages model c) (file : File),
      (∀ f, c.forest.main.Occurs f → ∃ F, c.program.find? f = some F ∧
        IsGreatest {n | ∃ above, Flat.CallChain s.simple model.entry (above ++ [f]) ∧
          n = Storage.behindGlobals model file + Storage.cellsOf c.program file above}
          (F.window file).base) ∧
      IsGreatest {n | ∃ chain, Flat.CallChain s.simple model.entry chain ∧
        n = Storage.behindGlobals model file + Storage.cellsOf c.program file chain}
        (s.storage.mainLine.at file) ∧
      (∀ f ∈ model.vectors.installed, ∃ F, c.program.find? f = some F ∧
        (F.window file).base = s.storage.mainLine.at file +
          Storage.cellsOf c.program file (model.vectors.installed.filter fun g =>
            model.vectors.lowest g < model.vectors.lowest f)) ∧
      Stages.total c file = s.storage.mainLine.at file +
        Storage.cellsOf c.program file model.vectors.installed := by
  refine ⟨stages_of_build h, fun s file => ?_⟩
  obtain ⟨pile, hpile⟩ := s.exists_pile
  have hmem : ∀ name, name ∈ pile ↔ name ∈ model.vectors.installed := fun _ =>
    (Model.Vectors.pile_perm hpile).mem_iff
  have hordered : pile.Pairwise fun a b => model.vectors.lowest a < model.vectors.lowest b :=
    hpile.ordered.imp_of_mem fun ha hb hab =>
      (Model.Vectors.precedes_iff ((hmem _).mp ha) ((hmem _).mp hb)).mp hab
  have hinstalled : model.vectors.installed.Nodup := Calls.nodup_distinct _
  refine ⟨fun f hf => s.isGreatest_base hentry hf file, s.isGreatest_mainLine file, ?_, ?_⟩
  · intro f hf
    obtain ⟨below, above, rfl⟩ := List.append_of_mem ((hmem f).mpr hf)
    obtain ⟨g, hg, hbase⟩ := hpile.base below f above rfl
    obtain ⟨level, hlevel⟩ := Model.Vectors.mem_installed.mp hf
    obtain ⟨F, hF, hwindow⟩ := s.window_final (s.reachable_of_handler
      (s.mem_handlerNames (Model.Vectors.mem_handlers_iff.mpr hlevel))) hg
    have hperm := perm_filter_of_pairwise hordered hinstalled hmem
    refine ⟨F, hF, ?_⟩
    rw [hwindow, hbase, s.cellsOf_stacked fun name hname =>
      (hmem name).mp (List.mem_append_left _ hname), Storage.cellsOf_perm hperm]
  · rw [s.total_eq, s.top_eq]

/-- In `sharedCallee` the function `g` is called by the entry and by `f`, and starts behind the
longer of the two chains. -/
theorem windows_are_tight_sharedCallee :
    (∀ level, sharedCallee.vectors.get level ≠ some sharedCallee.entry) ∧
      ∃ c, build sharedCallee = .ok c ∧ ∃ s : Stages sharedCallee c,
        IsGreatest {n | ∃ above, Flat.CallChain s.simple "demo.main" (above ++ ["demo.g"]) ∧
          n = Storage.behindGlobals sharedCallee .register +
            Storage.cellsOf c.program .register above} 5 := by
  have hentry : ∀ level, sharedCallee.vectors.get level ≠ some sharedCallee.entry := by
    intro level hlevel
    have hnot : sharedCallee.entry ∉ sharedCallee.vectors.installed := by decide +kernel
    exact hnot (Model.Vectors.mem_installed.mpr ⟨level, hlevel⟩)
  have hok : (build sharedCallee).toOption.map (fun c =>
      (decide ("demo.g" ∈ c.forest.main.discovery),
        (c.program.find? "demo.g").map fun G => (G.window .register).base)) =
      some (true, some 5) := by decide +kernel
  obtain ⟨c, hbuild, hat⟩ := Option.map_eq_some_iff.mp hok
  obtain ⟨hfound, hbase⟩ := Prod.ext_iff.mp hat
  have hbuild := toOption_eq_some.mp hbuild
  obtain ⟨⟨s⟩, htight⟩ := windows_are_tight hbuild hentry
  have hoccurs := (Calls.mem_discovery_iff s.rooted.main_unfolds).mp (of_decide_eq_true hfound)
  obtain ⟨G, hG, hgreatest⟩ := (htight s .register).1 "demo.g" hoccurs
  simp only [hG, Option.map_some, Option.some.injEq] at hbase
  rw [hbase] at hgreatest
  exact ⟨hentry, c, hbuild, s, hgreatest⟩

end Stackless
