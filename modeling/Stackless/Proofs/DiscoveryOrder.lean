import Mathlib.Data.List.Induction
import Stackless.Proofs.CallGraphs
import Stackless.Proofs.LabelClosure
import Stackless.Proofs.SharedFunctions

/-!
# The order of discovery

Storage is given to the functions in the order in which the call trees discover them.  A tree is
visited breadth first, and the calls of a name that is already known are not visited again.
Nothing is lost by that, because a name settles its tree, and the order is one in which callers
come first.

* `Led` — every name of a list is an entry point or is called by a name before it;
* `led_discovery` — a visit adds a name whose caller is known, so discovery leaves a led list;
* `Led.distinct` — leaving out repetitions keeps the first occurrences, and so the callers;
* `Led.reached` — what is led can be reached;
* `allocation_order_is_reachability` — all of it together, with the converse.
-/

namespace Stackless

namespace Calls

open Flat (Program Function Directly)
open Relation (ReflTransGen)

/-- Every name of the list is one of the roots, or is called by some name before it. -/
def Led (p : Program) (root : String → Prop) (names : List String) : Prop :=
  ∀ before name after, names = before ++ name :: after →
    root name ∨ ∃ caller ∈ before, Directly p caller name

namespace Led

variable {p : Program} {root : String → Prop} {names others : List String} {name : String}

theorem nil : Led p root [] := by
  intro before name after h
  cases before <;> cases h

/-- One more name needs a caller among the others, unless it is a root. -/
theorem snoc_iff : Led p root (names ++ [name]) ↔
    Led p root names ∧ (root name ∨ ∃ caller ∈ names, Directly p caller name) := by
  constructor
  · intro h
    refine ⟨fun before other after hsplit => ?_, h names name [] rfl⟩
    exact h before other (after ++ [name]) (by rw [hsplit, List.append_assoc, List.cons_append])
  · rintro ⟨hled, hname⟩ before other after hsplit
    rcases List.eq_nil_or_concat after with rfl | ⟨front, last, rfl⟩
    · obtain ⟨rfl, hlast⟩ := List.append_inj' hsplit rfl
      cases hlast
      exact hname
    · rw [List.concat_eq_append, ← List.cons_append, ← List.append_assoc] at hsplit
      obtain ⟨hfront, _⟩ := List.append_inj' hsplit rfl
      exact hled before other front hfront

/-- Names led to in a longer list too. -/
theorem append (hxs : Led p root names) (hys : Led p root others) :
    Led p root (names ++ others) := by
  induction others using List.reverseRecOn with
  | nil => rwa [List.append_nil]
  | append_singleton others name ih =>
      obtain ⟨hled, hname⟩ := snoc_iff.mp hys
      rw [← List.append_assoc]
      refine snoc_iff.mpr ⟨ih hled, hname.imp_right ?_⟩
      rintro ⟨caller, hcaller, hdirect⟩
      exact ⟨caller, List.mem_append_right _ hcaller, hdirect⟩

/-- Several lists that are led are led one behind the other. -/
theorem flatMap {α : Type} {f : α → List String} :
    ∀ {xs : List α}, (∀ x ∈ xs, Led p root (f x)) → Led p root (xs.flatMap f)
  | [], _ => nil
  | x :: xs, h => by
      rw [List.flatMap_cons]
      exact (h x List.mem_cons_self).append (flatMap fun y hy => h y (List.mem_cons_of_mem x hy))

/-- With fewer roots in the hypothesis than in the conclusion. -/
theorem mono {wider : String → Prop} (hwider : ∀ name, root name → wider name)
    (h : Led p root names) : Led p wider names :=
  fun before name after hsplit => (h before name after hsplit).imp_left (hwider name)

/-- What is led can be reached from a root: a name that is no root has a caller before it in the
list, for which the same holds. -/
theorem reached (h : Led p root names) :
    ∀ name ∈ names, ∃ r, root r ∧ ReflTransGen (Directly p) r name := by
  induction names using List.reverseRecOn with
  | nil => exact fun name hname => absurd hname List.not_mem_nil
  | append_singleton names last ih =>
      obtain ⟨hled, hlast⟩ := snoc_iff.mp h
      intro name hname
      rcases List.mem_append.mp hname with hname | hname
      · exact ih hled name hname
      · rw [List.mem_singleton.mp hname]
        rcases hlast with hroot | ⟨caller, hcaller, hdirect⟩
        · exact ⟨last, hroot, .refl⟩
        · obtain ⟨r, hr, hcalls⟩ := ih hled caller hcaller
          exact ⟨r, hr, hcalls.tail hdirect⟩

end Led

section Distinct

/-- The last of the names is kept if it is a new one. -/
theorem distinct_snoc (names : List String) (name : String) :
    distinct (names ++ [name]) =
      if name ∈ distinct names then distinct names else distinct names ++ [name] := by
  unfold distinct
  rw [List.foldl_append, List.foldl_cons, List.foldl_nil]

/-- Distinct names begin with the first of the names. -/
theorem head?_distinct (names : List String) : (distinct names).head? = names.head? := by
  induction names using List.reverseRecOn with
  | nil => rfl
  | append_singleton names name ih =>
      rw [distinct_snoc]
      cases names with
      | nil => rfl
      | cons first rest =>
          rw [List.cons_append, List.head?_cons]
          split
          · rw [ih, List.head?_cons]
          · rw [List.head?_append, ih, List.head?_cons, Option.some_or]

/-- Leaving out repetitions keeps a list led. The first place of a caller is what stays, so that
callers remain in front of those whom they call. -/
theorem Led.distinct {p : Program} {root : String → Prop} {names : List String}
    (h : Led p root names) : Led p root (distinct names) := by
  induction names using List.reverseRecOn with
  | nil => exact h
  | append_singleton names name ih =>
      obtain ⟨hled, hname⟩ := snoc_iff.mp h
      rw [distinct_snoc]
      split
      · exact ih hled
      · refine snoc_iff.mpr ⟨ih hled, hname.imp_right ?_⟩
        rintro ⟨caller, hcaller, hdirect⟩
        exact ⟨caller, mem_distinct.mpr hcaller, hdirect⟩

end Distinct

namespace CallTree

variable {p : Program}

theorem nodup_discovery (tree : CallTree) : tree.discovery.Nodup := by
  refine discoverFrom_keeps (fun known _ => known.Nodup) (fun _ _ _ _ h => h) ?_
    List.nodup_nil
  intro known name calls rest hnew h
  rw [← List.concat_eq_append]
  exact h.concat hnew

theorem prefix_discoverFrom (known : List String) (pending : List CallTree) :
    known <+: discoverFrom known pending := by
  refine discoverFrom_keeps (fun names _ => known <+: names) (fun _ _ _ _ h => h) ?_
    (List.prefix_refl known)
  intro names name calls rest _ h
  exact h.trans (List.prefix_append names [name])

/-- Discovery begins with the root. -/
theorem head?_discovery (tree : CallTree) : tree.discovery.head? = some tree.name := by
  cases tree with
  | node name calls =>
      have hfirst : discovery (.node name calls) = discoverFrom [name] calls := by
        rw [discovery, discoverFrom, if_neg List.not_mem_nil, List.nil_append, List.nil_append]
      obtain ⟨later, hlater⟩ := prefix_discoverFrom [name] calls
      rw [hfirst, ← hlater]
      rfl

/-- **A visit adds a name that was called**, unless it is the root: the trees that are pending
stand below names that are known. -/
theorem led_discovery {tree : CallTree} (h : Unfolds p tree) :
    Led p (· = tree.name) tree.discovery := by
  refine (discoverFrom_keeps (fun known pending => Led p (· = tree.name) known ∧
    ∀ t ∈ pending, Unfolds p t ∧
      (t.name = tree.name ∨ ∃ caller ∈ known, Directly p caller t.name)) ?_ ?_ ⟨.nil, ?_⟩).1
  · rintro known t rest _ ⟨hled, hpending⟩
    exact ⟨hled, fun u hu => hpending u (List.mem_cons_of_mem t hu)⟩
  · rintro known name calls rest _ ⟨hled, hpending⟩
    obtain ⟨hunfolds, hname⟩ := hpending _ List.mem_cons_self
    refine ⟨Led.snoc_iff.mpr ⟨hled, hname⟩, fun t ht => ?_⟩
    rcases List.mem_append.mp ht with ht | ht
    · obtain ⟨hbelow, hcalled⟩ := hpending t (List.mem_cons_of_mem _ ht)
      refine ⟨hbelow, hcalled.imp_right ?_⟩
      rintro ⟨caller, hcaller, hdirect⟩
      exact ⟨caller, List.mem_append_left _ hcaller, hdirect⟩
    · obtain ⟨f, hf, hcalls⟩ := hunfolds.root
      refine ⟨hunfolds.within (.under ht .refl), .inr ⟨name, by simp, f, hf, ?_⟩⟩
      rw [← hcalls]
      exact List.mem_map_of_mem ht
  · intro t ht
    rw [List.mem_singleton.mp ht]
    exact ⟨h, .inl rfl⟩

end CallTree

namespace Forest.Rooted

variable {model : Model.Program} {p : Program} {forest : Forest}

/-- The program is entered at the roots of its trees. -/
theorem entered_iff (hr : Rooted model p forest) {label : String} :
    model.Entered label ↔ ∃ tree ∈ forest.trees, tree.name = label := by
  have hhandler : (∃ level, model.vectors.get level = some label) ↔
      ∃ h ∈ forest.interrupts, h.2.name = label := by
    rw [← hr.mem_handlers_iff]
    exact exists_congr fun level => Model.Vectors.mem_handlers_iff.symm
  unfold Model.Program.Entered
  rw [hhandler, ← hr.main_name]
  constructor
  · rintro (rfl | ⟨h, hh, hname⟩)
    · exact ⟨forest.main, List.mem_cons_self, rfl⟩
    · exact ⟨h.2, List.mem_cons_of_mem _ (List.mem_map_of_mem hh), hname⟩
  · rintro ⟨tree, htree, rfl⟩
    rcases List.mem_cons.mp htree with rfl | htree
    · exact .inl rfl
    · obtain ⟨h, hh, rfl⟩ := List.mem_map.mp htree
      exact .inr ⟨h, hh, rfl⟩

/-- The functions that are reached are led from the entry points. -/
theorem led_reachable (hr : Rooted model p forest) : Led p model.Entered forest.reachable := by
  refine Led.distinct (Led.flatMap fun tree htree => ?_)
  refine (CallTree.led_discovery (hr.unfolds_of_mem_trees htree)).mono ?_
  rintro name rfl
  exact hr.entered_iff.mpr ⟨tree, htree, rfl⟩

theorem head?_reachable (hr : Rooted model p forest) :
    forest.reachable.head? = some model.entry := by
  rw [reachable, head?_distinct, discovery, trees, List.flatMap_cons, List.head?_append,
    CallTree.head?_discovery, hr.main_name, Option.some_or]

/-- What calls lead to from an entry point is reached. -/
theorem mem_reachable_of_calls (hr : Rooted model p forest) {root name : String}
    (hroot : model.Entered root) (hcalls : ReflTransGen (Directly p) root name) :
    name ∈ forest.reachable := by
  obtain ⟨tree, htree, rfl⟩ := hr.entered_iff.mp hroot
  have hunfolds := hr.unfolds_of_mem_trees htree
  obtain ⟨t, ht, rfl⟩ := hunfolds.exists_within hcalls
  refine mem_distinct.mpr (List.mem_flatMap.mpr ⟨tree, htree, ?_⟩)
  exact (mem_discovery_iff hunfolds).mpr ⟨t, ht, rfl⟩

end Forest.Rooted

end Calls

/-- **Functions get their storage in the order in which they are reached.**  Take any model and any
program with a call forest.  The order in which `allocate` lists the functions is that of the
forest: no function comes twice; a name is listed just if it can be reached by calls from the
entry or from an installed handler, and then it is the name of a function; the entry comes first;
and a function that is no entry point comes behind one that calls it.  In particular the discovery
of a single tree gives each name of the tree, once. -/
theorem allocation_order_is_reachability {model : Model.Program} {p : Flat.Program}
    {forest : Calls.Forest} (h : Calls.Forest.build model p = .ok forest) :
    (∀ final layout, Storage.allocate model p forest = .ok (final, layout) →
      layout.order = forest.reachable) ∧
    forest.reachable.Nodup ∧
    (∀ name, name ∈ forest.reachable ↔
      ∃ root, model.Entered root ∧ Relation.ReflTransGen (Flat.Directly p) root name) ∧
    (∀ name ∈ forest.reachable, ∃ f, p.find? name = some f) ∧
    forest.reachable.head? = some model.entry ∧
    (∀ before name after, forest.reachable = before ++ name :: after → ¬model.Entered name →
      ∃ caller ∈ before, Flat.Directly p caller name) ∧
    ∀ tree ∈ forest.trees,
      tree.discovery.Nodup ∧ ∀ name, name ∈ tree.discovery ↔ tree.Occurs name := by
  have hr := Calls.Forest.rooted_of_build h
  refine ⟨fun final layout hallocate => ?_, Calls.nodup_distinct _, fun name => ⟨?_, ?_⟩,
    fun name hname => hr.find?_of_mem_reachable hname, hr.head?_reachable,
    fun before name after hsplit hname => ?_, fun tree htree => ?_⟩
  · obtain ⟨s⟩ := Storage.stages_of_allocate hallocate
    rw [s.layout_eq]
  · exact hr.led_reachable.reached name
  · rintro ⟨root, hroot, hcalls⟩
    exact hr.mem_reachable_of_calls hroot hcalls
  · exact (hr.led_reachable before name after hsplit).resolve_left hname
  · have hunfolds := hr.unfolds_of_mem_trees htree
    exact ⟨tree.nodup_discovery, fun name => Calls.mem_discovery_iff hunfolds⟩

/-- A program whose entry calls two functions that share a callee, with a handler at level 3. -/
def diamond : Flat.Program :=
  (Calls.callers [("demo.main", ["demo.f", "demo.g"]), ("demo.f", ["demo.h"]),
    ("demo.g", ["demo.h"]), ("demo.h", ["demo.k"]), ("demo.k", [])]).insert "demo.tick"
    { label := "demo.tick", isr := true, body := [] }

/-- In `diamond` the shared callee is listed once, and its callee is not lost. -/
theorem allocation_order_is_reachability_diamond :
    ∃ (model : Model.Program) (forest : Calls.Forest),
      Calls.Forest.build model diamond = .ok forest ∧
      forest.reachable = ["demo.main", "demo.f", "demo.g", "demo.h", "demo.k", "demo.tick"] ∧
      ∃ root, model.Entered root ∧
        Relation.ReflTransGen (Flat.Directly diamond) root "demo.k" := by
  have hshape : (Calls.Forest.build (twoHandlers "demo.tick") diamond).toOption.map
      (·.reachable) = some ["demo.main", "demo.f", "demo.g", "demo.h", "demo.k", "demo.tick"] := by
    decide +kernel
  obtain ⟨forest, hforest, horder⟩ := Option.map_eq_some_iff.mp hshape
  have hforest := toOption_eq_some.mp hforest
  obtain ⟨_, _, hreached, _⟩ := allocation_order_is_reachability hforest
  refine ⟨twoHandlers "demo.tick", forest, hforest, horder, (hreached "demo.k").mp ?_⟩
  rw [horder]
  decide

end Stackless
