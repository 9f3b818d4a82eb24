import Mathlib.Logic.Relation
import Stackless.Proofs.CallTrees

/-!
# Which programs have a call tree

The functions of a program and their calls are a graph.  What can be reached from an entry point
is unfolded to a call tree just if nothing in it calls itself, directly or not, all callees are
there, and interrupt handlers neither call nor are called.

* `Flat.Directly` — the edges of the graph;
* `Unfoldable` — what it takes for an entry point to have a call tree;
* `Unfolds.unfoldable` — a call tree shows all that can be reached, and nothing stands below itself;
* `exists_unfolding` — what calls a function stands above it, so a name that repeats on the way
  from the root is a cycle;
* `unfoldTo_eq` — visits are nested at most as deep as there are functions, and once more;
* `build_iff_unfoldable` — all of it together.
-/

namespace Stackless

/-- One function of a program calls another: the callee is among the calls that are listed in the
flat form of the caller. -/
def Flat.Directly (p : Flat.Program) (caller callee : String) : Prop :=
  ∃ f, p.find? caller = some f ∧ callee ∈ f.calls.map (·.1)

namespace Calls

open Flat (Program Function Directly)
open Relation (ReflTransGen TransGen)

/-- What it takes for an entry point to have a call tree. All callees that it comes to are defined
and no handlers, none calls itself in the end, and a handler as the entry point calls nothing. -/
structure Unfoldable (p : Program) (entry : String) : Prop where
  defined : ∃ f, p.find? entry = some f
  /-- A handler makes no call. -/
  quiet : isHandler p entry = true → ∀ callee, ¬Directly p entry callee
  callee_defined : ∀ f g, ReflTransGen (Directly p) entry f → Directly p f g →
    ∃ G, p.find? g = some G
  callee_plain : ∀ f g, ReflTransGen (Directly p) entry f → Directly p f g → isHandler p g = false
  acyclic : ∀ f, ReflTransGen (Directly p) entry f → ¬TransGen (Directly p) f f

namespace CallTree

/-- The names on a way from the root to a leaf.  The functions of such a way can all be active at one
time, and in an unfolding they are different. -/
inductive Way : CallTree → List String → Prop
  | leaf (name : String) : Way (.node name []) [name]
  | step {name : String} {calls : List CallTree} {child : CallTree} {names : List String} :
      child ∈ calls → Way child names → Way (.node name calls) (name :: names)

/-- The names on a way occur in the tree. -/
theorem Way.occurs {tree : CallTree} {names : List String} (h : tree.Way names) :
    ∀ name ∈ names, tree.Occurs name := by
  induction h with
  | leaf name =>
      intro other hother
      rw [List.mem_singleton.mp hother]
      exact occurs_name _
  | step hchild _ ih =>
      intro other hother
      rcases List.mem_cons.mp hother with rfl | hother
      · exact occurs_name _
      · exact (ih other hother).under hchild

end CallTree

open CallTree

namespace Unfolds

variable {p : Program} {tree : CallTree}

/-- What the root of an unfolding calls, directly or not, stands below it. -/
theorem exists_below (h : Unfolds p tree) {f g : String} (hf : tree.name = f)
    (hcalls : TransGen (Directly p) f g) :
    ∃ child ∈ tree.calls, ∃ t, Within t child ∧ t.name = g := by
  induction hcalls with
  | single hdirect =>
      obtain ⟨F, hF, hmem⟩ := hdirect
      obtain ⟨child, hchild, hname⟩ := h.exists_child (hf ▸ hF) hmem
      exact ⟨child, hchild, child, .refl, hname⟩
  | tail _ hdirect ih =>
      obtain ⟨child, hchild, t, ht, rfl⟩ := ih
      obtain ⟨F, hF, hmem⟩ := hdirect
      have hunfolds : Unfolds p t := by
        cases h with
        | node _ _ _ _ hall => exact (hall child hchild).within ht
      obtain ⟨next, hnext, hname⟩ := hunfolds.exists_child hF hmem
      cases t with
      | node name calls => exact ⟨child, hchild, next, .trans (.under hnext .refl) ht, hname⟩

/-- What can be reached from the root of an unfolding stands in it. -/
theorem exists_within (h : Unfolds p tree) {f : String}
    (hreach : ReflTransGen (Directly p) tree.name f) : ∃ t, Within t tree ∧ t.name = f := by
  rcases Relation.reflTransGen_iff_eq_or_transGen.mp hreach with rfl | hcalls
  · exact ⟨tree, .refl, rfl⟩
  · obtain ⟨child, hchild, t, ht, hname⟩ := h.exists_below rfl hcalls
    cases tree with
    | node name calls => exact ⟨t, .under hchild ht, hname⟩

/-- **What has an unfolding is unfoldable.**  A tree is finite and names what it calls, so a
function that came back below itself would have to contain its own tree. -/
theorem unfoldable (h : Unfolds p tree) : Unfoldable p tree.name where
  defined := by
    obtain ⟨f, hf, _⟩ := h.root
    exact ⟨f, hf⟩
  quiet := by
    intro hhandler callee hdirect
    obtain ⟨f, hf, hmem⟩ := hdirect
    obtain ⟨child, hchild, _⟩ := h.exists_child hf hmem
    rw [h.calls_eq_nil hhandler] at hchild
    cases hchild
  callee_defined := by
    intro f g hreach hdirect
    obtain ⟨t, ht, hname⟩ := h.exists_within (hreach.tail hdirect)
    exact h.find?_of_occurs ⟨t, ht, hname⟩
  callee_plain := by
    intro f g hreach hdirect
    obtain ⟨t, ht, rfl⟩ := h.exists_within hreach
    obtain ⟨F, hF, hmem⟩ := hdirect
    have hunfolds := h.within ht
    obtain ⟨child, hchild, rfl⟩ := hunfolds.exists_child hF hmem
    cases hunfolds with
    | node _ _ _ hplain _ => exact hplain child hchild
  acyclic := by
    intro f hreach hcycle
    obtain ⟨t, ht, rfl⟩ := h.exists_within hreach
    obtain ⟨child, hchild, u, hu, hname⟩ := (h.within ht).exists_below rfl hcycle
    exact (h.within ht).name_ne_of_below hchild hu hname.symm

/-- No name repeats on a way from the root to a leaf. -/
theorem nodup_of_way {names : List String} (hway : tree.Way names) (h : Unfolds p tree) :
    names.Nodup := by
  induction hway with
  | leaf name => exact List.nodup_cons.mpr ⟨List.not_mem_nil, .nil⟩
  | @step name calls child names hchild hway ih =>
      have hunfolds : Unfolds p child := h.within (.under hchild .refl)
      refine List.nodup_cons.mpr ⟨fun hmem => ?_, ih hunfolds⟩
      obtain ⟨t, ht, hname⟩ := hway.occurs name hmem
      exact h.name_ne_of_below hchild ht hname.symm

end Unfolds

/-- A handler that makes no call passes its check. -/
theorem checkHandler_of_quiet {p : Program} {f : Function} {label : String}
    (hfind : p.find? label = some f)
    (hquiet : isHandler p label = true → ∀ callee, ¬Directly p label callee) :
    checkHandler f label = .ok () := by
  unfold checkHandler
  split
  · rename_i call position rest hisr hcalls
    refine absurd ⟨f, hfind, ?_⟩ (hquiet (by rw [isHandler, hfind]; exact hisr) call)
    rw [hcalls]
    exact List.mem_cons_self
  · rfl

/-- The tree of a callee, where the caller is the last on the path. -/
def calleeTree (p : Program) (path : List String) (call : String × Option Position) :
    Except (Located CompileError) CallTree :=
  if isHandler p call.1 then .error ⟨call.2, .callToInterrupt call.1⟩
  else if again : call.1 ∈ path then .error ⟨call.2, .recursion call.1⟩
  else unfolding p path call.1 again

/-- The tree of a function that is there: the function is checked, and its calls are visited. -/
theorem unfolding_of_find? {p : Program} {path : List String} {label : String} {f : Function}
    (fresh : label ∉ path) (hfind : p.find? label = some f) :
    unfolding p path label fresh = do
      checkHandler f label
      let calls ← f.calls.mapM (calleeTree p (path ++ [label]))
      return .node label calls := by
  rw [unfolding]
  split
  · rename_i hnone
    rw [hfind] at hnone
    cases hnone
  · rename_i f' hfind'
    rw [hfind] at hfind'
    cases hfind'
    rfl

/-- A function that is not there has no tree. -/
theorem unfolding_of_none {p : Program} {path : List String} {label : String}
    (fresh : label ∉ path) (hfind : p.find? label = none) :
    unfolding p path label fresh = .error (.nowhere (.undefinedFunction label)) := by
  rw [unfolding]
  split
  · rfl
  · rename_i f hfind'
    rw [hfind] at hfind'
    cases hfind'

/-- **What is unfoldable is unfolded.**  The names on the path call the function at hand, directly
or not, so a callee on the path would be called by itself. -/
theorem exists_unfolding {p : Program} {entry : String} (h : Unfoldable p entry)
    {path : List String} {label : String} {fresh : label ∉ path}
    (hreach : ReflTransGen (Directly p) entry label)
    (hpath : ∀ name ∈ path, TransGen (Directly p) name label)
    (hdefined : ∃ f, p.find? label = some f)
    (hquiet : isHandler p label = true → ∀ callee, ¬Directly p label callee) :
    ∃ tree, unfolding p path label fresh = .ok tree := by
  induction hn : freeNames p path using Nat.strongRecOn generalizing path label with
  | ind n ih =>
      obtain ⟨f, hfind⟩ := hdefined
      rw [unfolding_of_find? fresh hfind, checkHandler_of_quiet hfind hquiet]
      suffices hcalls : ∃ calls, f.calls.mapM (calleeTree p (path ++ [label])) = .ok calls by
        obtain ⟨calls, hcalls⟩ := hcalls
        exact ⟨.node label calls, bind_eq_ok.mpr ⟨(), rfl, bind_eq_ok.mpr ⟨calls, hcalls, rfl⟩⟩⟩
      refine exists_mapM_ok fun call hcall => ?_
      have hdirect : Directly p label call.1 := ⟨f, hfind, List.mem_map_of_mem hcall⟩
      have hplain := h.callee_plain label call.1 hreach hdirect
      have hnext : ∀ name ∈ path ++ [label], TransGen (Directly p) name call.1 := by
        intro name hname
        rcases List.mem_append.mp hname with hname | hname
        · exact (hpath name hname).tail hdirect
        · rw [List.mem_singleton.mp hname]
          exact .single hdirect
      have hagain : call.1 ∉ path ++ [label] := fun hmem =>
        h.acyclic call.1 (hreach.tail hdirect) (hnext call.1 hmem)
      rw [calleeTree, if_neg (by rw [hplain]; exact Bool.false_ne_true), dif_neg hagain]
      refine ih _ (hn ▸ freeNames_append_lt hfind fresh) (hreach.tail hdirect) hnext
        (h.callee_defined label call.1 hreach hdirect) (fun hhandler => ?_) rfl
      rw [hplain] at hhandler
      cases hhandler

section Depth

/-- The tree of a function that is reached along a path of callers, where visits may be nested so
deep and not deeper. -/
def unfoldTo (p : Program) : (depth : Nat) → (path : List String) → (label : String) →
    Except (Option (Located CompileError)) CallTree
  | 0, _, _ => .error none
  | depth + 1, path, label =>
    match p.find? label with
    | none => .error (some (.nowhere (.undefinedFunction label)))
    | some f => do
      (checkHandler f label).mapError some
      let calls ← f.calls.mapM fun call =>
        if isHandler p call.1 then .error (some ⟨call.2, .callToInterrupt call.1⟩)
        else if call.1 ∈ path ++ [label] then .error (some ⟨call.2, .recursion call.1⟩)
        else unfoldTo p depth (path ++ [label]) call.1
      return .node label calls

/-- **Visits are nested no deeper than there are names left**, and once more for the last function
or for one that is not there. -/
theorem unfoldTo_eq {p : Program} {depth : Nat} {path : List String} {label : String}
    (fresh : label ∉ path) (hdepth : freeNames p path < depth) :
    unfoldTo p depth path label = (unfolding p path label fresh).mapError some := by
  induction depth generalizing path label with
  | zero => omega
  | succ depth ih =>
      rw [unfoldTo]
      cases hfind : p.find? label with
      | none => rw [unfolding_of_none fresh hfind]; rfl
      | some f =>
          have hless := freeNames_append_lt hfind fresh
          rw [unfolding_of_find? fresh hfind, mapError_bind]
          show ((checkHandler f label).mapError some >>= _) = _
          congr 1
          funext _
          rw [mapError_bind]
          congr 1
          refine mapM_mapError fun call _ => ?_
          unfold calleeTree
          split
          · rfl
          · split
            · rfl
            · rename_i hagain
              exact ih hagain (by omega)

end Depth

/-- **A call tree is built for just the programs without recursion, and building always ends.**
Take any program and any label.  The label has a call tree if and only if it is unfoldable.  The
tree then starts with the label; under each function stand its callees, in order and one for each
call; no name repeats on a way from the root to a leaf; and a name has the same tree wherever it
stands.  Whether or not there is a tree, visits are nested no deeper than there are functions, and
once more. -/
theorem build_iff_unfoldable (p : Program) (entry : String) :
    ((∃ tree, CallTree.build p entry = .ok tree) ↔ Unfoldable p entry) ∧
    (∀ tree, CallTree.build p entry = .ok tree →
      tree.name = entry ∧
      (∀ t, Within t tree →
        ∃ f, p.find? t.name = some f ∧ t.calls.map CallTree.name = f.calls.map (·.1)) ∧
      (∀ names, tree.Way names → names.Nodup) ∧
      ∀ t u, Within t tree → Within u tree → t.name = u.name → t = u) ∧
    ∀ depth, p.keys.length < depth →
      unfoldTo p depth [] entry = (CallTree.build p entry).mapError some := by
  refine ⟨⟨?_, fun h => ?_⟩, fun tree htree => ?_, fun depth hdepth => ?_⟩
  · rintro ⟨tree, htree⟩
    obtain ⟨hunfolds, rfl⟩ := unfolds_of_build htree
    exact hunfolds.unfoldable
  · exact exists_unfolding h .refl (fun name hname => absurd hname List.not_mem_nil) h.defined
      h.quiet
  · obtain ⟨hunfolds, hname⟩ := unfolds_of_build htree
    refine ⟨hname, fun t ht => (hunfolds.within ht).root,
      fun names hway => hunfolds.nodup_of_way hway, fun t u ht hu hsame => ?_⟩
    exact (hunfolds.within ht).eq_of_name_eq u (hunfolds.within hu) hsame
  · refine unfoldTo_eq List.not_mem_nil (Nat.lt_of_le_of_lt ?_ hdepth)
    exact List.length_filter_le _ _

/-- A program with the given functions, which do nothing but call others. -/
def callers (functions : List (String × List String)) : Program :=
  functions.foldl (fun p f => p.insert f.1
    { label := f.1, body := f.2.map fun callee => .fresh none (.call callee none) }) ∅

/-- Two functions that share a callee are unfolded, and two that call each other are not. -/
theorem build_iff_unfoldable_shared :
    (∃ tree, CallTree.build (callers [("f", ["g", "h"]), ("g", ["k"]), ("h", ["k", "k"]), ("k", [])])
      "f" = .ok tree ∧ tree.name = "f" ∧ ∀ names, tree.Way names → names.Nodup) ∧
    Unfoldable (callers [("f", ["g", "h"]), ("g", ["k"]), ("h", ["k", "k"]), ("k", [])]) "f" ∧
    ¬Unfoldable (callers [("f", ["g"]), ("g", ["f"])]) "f" := by
  have hok : (CallTree.build (callers [("f", ["g", "h"]), ("g", ["k"]), ("h", ["k", "k"]),
      ("k", [])]) "f").toOption.isSome = true := by decide +kernel
  obtain ⟨tree, htree⟩ := Option.isSome_iff_exists.mp hok
  rw [toOption_eq_some] at htree
  obtain ⟨hiff, hshape, _⟩ := build_iff_unfoldable
    (callers [("f", ["g", "h"]), ("g", ["k"]), ("h", ["k", "k"]), ("k", [])]) "f"
  obtain ⟨hname, _, hways, _⟩ := hshape tree htree
  refine ⟨⟨tree, htree, hname, hways⟩, hiff.mp ⟨tree, htree⟩, fun hunfoldable => ?_⟩
  obtain ⟨ring, hring⟩ := (build_iff_unfoldable _ _).1.mpr hunfoldable
  have hnone : (CallTree.build (callers [("f", ["g"]), ("g", ["f"])]) "f").toOption.isNone = true := by
    decide +kernel
  rw [toOption_eq_some.mpr hring] at hnone
  cases hnone

end Calls

end Stackless
