import Stackless.Calls.Forest
import Stackless.Proofs.Outcome

/-!
# What a call tree says about its program

A call tree is the **unfolding** of a program at a name: under a function stand
the functions it calls, in order and once for each call.  So a name settles the
whole tree below it, wherever it stands, and two consequences follow.

* `Unfolds.eq_of_name_eq` — two unfoldings of one name are the same tree;
* `Unfolds.name_ne_of_below` — no name stands below itself, because a tree is
  larger than what is below its root;
* `mem_discovery_iff` — the breadth-first discovery finds exactly the names of
  the tree, although it visits the calls of each name only once.
-/

namespace Stackless.Calls

open Flat (Program Function)

namespace CallTree

/-- `t.Within u`: the tree `t` is `u` itself or stands somewhere below its root. -/
inductive Within (t : CallTree) : CallTree → Prop
  | refl : Within t t
  | under {name : String} {calls : List CallTree} {child : CallTree} :
      child ∈ calls → Within t child → Within t (.node name calls)

/-- The name stands somewhere in the tree. -/
def Occurs (tree : CallTree) (name : String) : Prop :=
  ∃ t, Within t tree ∧ t.name = name

/-- `tree.Above f g`: on some way from the root, `f` stands properly above `g`. -/
def Above (tree : CallTree) (f g : String) : Prop :=
  ∃ t child, Within t tree ∧ t.name = f ∧ child ∈ t.calls ∧ child.Occurs g

theorem occurs_name (tree : CallTree) : tree.Occurs tree.name :=
  ⟨tree, .refl, rfl⟩

/-- What occurs in a child occurs in the tree. -/
theorem Occurs.under {name root : String} {calls : List CallTree} {child : CallTree}
    (hchild : child ∈ calls) (h : child.Occurs name) : (node root calls).Occurs name := by
  obtain ⟨t, ht, hname⟩ := h
  exact ⟨t, .under hchild ht, hname⟩

theorem Within.trans {t u v : CallTree} (htu : Within t u) (huv : Within u v) : Within t v := by
  induction huv with
  | refl => exact htu
  | under hchild _ ih => exact .under hchild ih

/-- What occurs in a tree within occurs in the whole. -/
theorem Occurs.within {t u : CallTree} {name : String} (h : t.Occurs name) (htu : Within t u) :
    u.Occurs name := by
  obtain ⟨v, hv, hname⟩ := h
  exact ⟨v, hv.trans htu, hname⟩

/-- A child has fewer nodes than several trees it is one of. -/
theorem size_le_sizeAll {child : CallTree} :
    ∀ {calls : List CallTree}, child ∈ calls → child.size ≤ sizeAll calls
  | tree :: rest, h => by
    rcases List.mem_cons.mp h with rfl | h
    · simp only [sizeAll]
      omega
    · have := size_le_sizeAll h
      simp only [sizeAll]
      omega

/-- A tree within another has at most as many nodes. -/
theorem Within.size_le {t u : CallTree} (h : Within t u) : t.size ≤ u.size := by
  induction h with
  | refl => exact Nat.le_refl _
  | under hchild _ ih =>
      have := size_le_sizeAll hchild
      simp only [size]
      omega

end CallTree

open CallTree

/-- The tree is what the calls of the program unfold to: each function has one
child for each of its calls, no child is an interrupt handler, and a handler has
no child. -/
inductive Unfolds (p : Program) : CallTree → Prop
  | node {name : String} {f : Function} {calls : List CallTree} :
      p.find? name = some f →
      calls.map CallTree.name = f.calls.map (·.1) →
      (f.isr = true → calls = []) →
      (∀ t ∈ calls, isHandler p t.name = false) →
      (∀ t ∈ calls, Unfolds p t) →
      Unfolds p (.node name calls)

namespace Unfolds

variable {p : Program}

theorem within {t u : CallTree} (hu : Unfolds p u) (h : Within t u) : Unfolds p t := by
  induction h with
  | refl => exact hu
  | under hchild _ ih =>
      cases hu with
      | node _ _ _ _ hcalls => exact ih (hcalls _ hchild)

/-- The function at the root is a function of the program, and its calls are the
names of the children. -/
theorem root {t : CallTree} (h : Unfolds p t) :
    ∃ f, p.find? t.name = some f ∧ t.calls.map CallTree.name = f.calls.map (·.1) := by
  cases h with
  | node hfind hcalls _ _ _ => exact ⟨_, hfind, hcalls⟩

/-- Every name of an unfolding is a function of the program. -/
theorem find?_of_occurs {t : CallTree} {name : String} (h : Unfolds p t) (ho : t.Occurs name) :
    ∃ f, p.find? name = some f := by
  obtain ⟨u, hu, rfl⟩ := ho
  obtain ⟨f, hf, _⟩ := (h.within hu).root
  exact ⟨f, hf⟩

/-- Lists of trees with the same names are the same if a name settles each tree
of the first. -/
theorem list_eq_of_names_eq :
    ∀ {xs ys : List CallTree}, xs.map CallTree.name = ys.map CallTree.name →
      (∀ x ∈ xs, ∀ u, Unfolds p u → x.name = u.name → x = u) → (∀ y ∈ ys, Unfolds p y) → xs = ys
  | [], [], _, _, _ => rfl
  | [], _ :: _, h, _, _ => by cases h
  | _ :: _, [], h, _, _ => by cases h
  | x :: xs, y :: ys, h, hx, hy => by
    obtain ⟨hname, hrest⟩ := List.cons.inj h
    have hhead : x = y := hx x List.mem_cons_self y (hy y List.mem_cons_self) hname
    have htail : xs = ys := list_eq_of_names_eq hrest
      (fun z hz => hx z (List.mem_cons_of_mem _ hz)) (fun z hz => hy z (List.mem_cons_of_mem _ hz))
    rw [hhead, htail]

/-- **A name settles its tree.**  Two unfoldings of one name are equal. -/
theorem eq_of_name_eq {t : CallTree} (ht : Unfolds p t) :
    ∀ u, Unfolds p u → t.name = u.name → t = u := by
  induction ht with
  | @node name f calls hfind hcalls _ _ _ ih =>
      intro u hu hname
      cases hu with
      | @node name' f' calls' hfind' hcalls' _ _ hall' =>
          have hname : name = name' := hname
          subst hname
          rw [hfind] at hfind'
          cases hfind'
          have heq : calls = calls' :=
            list_eq_of_names_eq (hcalls.trans hcalls'.symm) ih hall'
          rw [heq]

/-- No name stands below itself: by `eq_of_name_eq` the tree that stands there would be the one
that contains it. -/
theorem name_ne_of_below {t child u : CallTree} (ht : Unfolds p t) (hchild : child ∈ t.calls)
    (hu : Within u child) : t.name ≠ u.name := by
  intro hname
  have hwithin : Within u t := by
    cases t with
    | node name calls => exact .under hchild hu
  have heq : t = u := ht.eq_of_name_eq u (ht.within hwithin) hname
  have hle := hu.size_le
  have hlt : child.size < t.size := by
    cases t with
    | node name calls =>
        have := size_le_sizeAll (show child ∈ calls from hchild)
        simp only [size]
        omega
  rw [← heq] at hle
  omega

/-- The calls of a function that stands in an unfolding are children there. -/
theorem exists_child {t : CallTree} (ht : Unfolds p t) {f : Function}
    (hf : p.find? t.name = some f) {callee : String} (hc : callee ∈ f.calls.map (·.1)) :
    ∃ child ∈ t.calls, child.name = callee := by
  obtain ⟨f', hf', hcalls⟩ := ht.root
  rw [hf] at hf'
  cases hf'
  rw [← hcalls] at hc
  obtain ⟨child, hmem, hname⟩ := List.mem_map.mp hc
  exact ⟨child, hmem, hname⟩

/-- A handler stands in no unfolding but at its root. -/
theorem eq_or_not_handler {t u : CallTree} (ht : Unfolds p t) (hu : Within u t) :
    u = t ∨ isHandler p u.name = false := by
  induction hu with
  | refl => exact .inl rfl
  | @under name calls child hchild _ ih =>
      cases ht with
      | node _ _ _ hplain hcalls =>
          rcases ih (hcalls child hchild) with rfl | h
          · exact .inr (hplain u hchild)
          · exact .inr h

/-- The tree of a handler has nothing below its root. -/
theorem calls_eq_nil {t : CallTree} (ht : Unfolds p t) (hisr : isHandler p t.name = true) :
    t.calls = [] := by
  cases ht with
  | @node name f calls hfind _ halone _ _ =>
      have hf : f.isr = true := by simpa [isHandler, hfind, CallTree.name] using hisr
      exact halone hf

end Unfolds

/-- A handler that passes its check makes no call. -/
theorem calls_nil_of_checkHandler {f : Function} {label : String}
    (h : checkHandler f label = .ok ()) (hisr : f.isr = true) : f.calls = [] := by
  unfold checkHandler at h
  rw [hisr] at h
  cases hcalls : f.calls with
  | nil => rfl
  | cons call rest =>
      rw [hcalls] at h
      cases h

/-- What `unfolding` gives is an unfolding of the name it was asked for. -/
theorem unfolds_of_unfolding {p : Program} {path : List String} {label : String}
    {fresh : label ∉ path} {tree : CallTree} (h : unfolding p path label fresh = .ok tree) :
    Unfolds p tree ∧ tree.name = label := by
  induction hn : freeNames p path using Nat.strongRecOn generalizing path label tree with
  | ind n ih =>
      unfold unfolding at h
      split at h
      · cases h
      · rename_i f hfind
        obtain ⟨_, hcheck, h⟩ := bind_eq_ok.mp h
        obtain ⟨calls, hcalls, h⟩ := bind_eq_ok.mp h
        cases h
        obtain ⟨hlen, hall⟩ := mapM_eq_ok.mp hcalls
        have hchild : ∀ (i : Nat) (t : CallTree), calls[i]? = some t →
            ∃ call, f.calls[i]? = some call ∧ t.name = call.1 ∧
              isHandler p t.name = false ∧ Unfolds p t := by
          intro i t ht
          obtain ⟨call, hcall, hstep⟩ := exists_of_mapM_getElem? hcalls ht
          refine ⟨call, hcall, ?_⟩
          split at hstep
          · cases hstep
          · rename_i hplain
            split at hstep
            · cases hstep
            · rename_i hagain
              have hless := freeNames_append_lt hfind fresh
              obtain ⟨hunf, hname⟩ := ih _ (hn ▸ hless) hstep rfl
              exact ⟨hname, by rw [hname]; simpa using hplain, hunf⟩
        refine ⟨.node hfind ?_ ?_ ?_ ?_, rfl⟩
        · apply List.ext_getElem?
          intro i
          rw [List.getElem?_map, List.getElem?_map]
          cases ht : calls[i]? with
          | none =>
              have hi : f.calls[i]? = none := by
                rw [List.getElem?_eq_none_iff] at ht ⊢
                omega
              rw [hi]
              rfl
          | some t =>
              obtain ⟨call, hcall, hname, _⟩ := hchild i t ht
              rw [hcall, Option.map_some, Option.map_some, hname]
        · intro hisr
          have hnil := calls_nil_of_checkHandler hcheck hisr
          rw [hnil] at hlen
          exact List.eq_nil_of_length_eq_zero hlen
        · intro t ht
          obtain ⟨i, hi⟩ := List.mem_iff_getElem?.mp ht
          obtain ⟨_, _, _, hplain, _⟩ := hchild i t hi
          exact hplain
        · intro t ht
          obtain ⟨i, hi⟩ := List.mem_iff_getElem?.mp ht
          obtain ⟨_, _, _, _, hunf⟩ := hchild i t hi
          exact hunf

/-- A call tree that was built is the unfolding of its entry. -/
theorem unfolds_of_build {p : Program} {entry : String} {tree : CallTree}
    (h : CallTree.build p entry = .ok tree) : Unfolds p tree ∧ tree.name = entry :=
  unfolds_of_unfolding h

section Discovery

/-- **What a visit keeps, discovery keeps.**  A visit either passes over a tree whose name is
known, or adds the name and appends the trees below it. -/
theorem discoverFrom_keeps (Inv : List String → List CallTree → Prop)
    (hpassed : ∀ known tree rest, tree.name ∈ known → Inv known (tree :: rest) → Inv known rest)
    (hvisited : ∀ known name calls rest, name ∉ known → Inv known (.node name calls :: rest) →
      Inv (known ++ [name]) (rest ++ calls))
    {known : List String} {pending : List CallTree} (h : Inv known pending) :
    Inv (discoverFrom known pending) [] := by
  fun_induction discoverFrom known pending with
  | case1 known => exact h
  | case2 known root calls rest hknown ih =>
      exact ih (hpassed known (.node root calls) rest hknown h)
  | case3 known root calls rest hnew ih => exact ih (hvisited known root calls rest hnew h)

theorem mem_discoverFrom_of_known {known : List String} {pending : List CallTree} {name : String}
    (h : name ∈ known) : name ∈ discoverFrom known pending := by
  fun_induction discoverFrom known pending with
  | case1 known => exact h
  | case2 known root calls rest _ ih => exact ih h
  | case3 known root calls rest _ ih => exact ih (List.mem_append_left _ h)

/-- Discovery finds only names that it knows or that occur in a pending tree. -/
theorem occurs_of_mem_discoverFrom {known : List String} {pending : List CallTree} {name : String}
    (h : name ∈ discoverFrom known pending) : name ∈ known ∨ ∃ t ∈ pending, t.Occurs name := by
  fun_induction discoverFrom known pending with
  | case1 known => exact .inl h
  | case2 known root calls rest _ ih =>
      rcases ih h with h | ⟨t, ht, ho⟩
      · exact .inl h
      · exact .inr ⟨t, List.mem_cons_of_mem _ ht, ho⟩
  | case3 known root calls rest _ ih =>
      rcases ih h with h | ⟨t, ht, ho⟩
      · rcases List.mem_append.mp h with h | h
        · exact .inl h
        · have hroot : name = root := by simpa using h
          exact .inr ⟨_, List.mem_cons_self, hroot ▸ occurs_name (.node root calls)⟩
      · rcases List.mem_append.mp ht with ht | ht
        · exact .inr ⟨t, List.mem_cons_of_mem _ ht, ho⟩
        · exact .inr ⟨_, List.mem_cons_self, ho.under ht⟩

variable {p : Program}

/-- With every name the list holds all that its function calls, except for what
`pending` still has at a root. -/
def ClosedUpTo (p : Program) (known : List String) (pending : List CallTree) : Prop :=
  ∀ name ∈ known, ∀ f, p.find? name = some f → ∀ callee ∈ f.calls.map (·.1),
    callee ∈ known ∨ callee ∈ pending.map CallTree.name

/-- **What discovery ends with is closed under calls**, if it starts from a list
that is closed up to the pending trees.  The trees of names already known may be
skipped, since a name settles its tree. -/
theorem closed_discoverFrom {known : List String} {pending : List CallTree}
    (hpending : ∀ t ∈ pending, Unfolds p t) (hclosed : ClosedUpTo p known pending) :
    ClosedUpTo p (discoverFrom known pending) [] ∧
      ∀ t ∈ pending, t.name ∈ discoverFrom known pending := by
  fun_induction discoverFrom known pending with
  | case1 known => exact ⟨hclosed, by simp⟩
  | case2 known root calls rest hknown ih =>
      have hrest : ClosedUpTo p known rest := by
        intro name hname f hf callee hcallee
        rcases hclosed name hname f hf callee hcallee with h | h
        · exact .inl h
        · rcases List.mem_cons.mp h with rfl | h
          · exact .inl hknown
          · exact .inr h
      obtain ⟨hout, hroots⟩ := ih (fun t ht => hpending t (List.mem_cons_of_mem _ ht)) hrest
      refine ⟨hout, fun t ht => ?_⟩
      rcases List.mem_cons.mp ht with rfl | ht
      · exact mem_discoverFrom_of_known hknown
      · exact hroots t ht
  | case3 known root calls rest hnew ih =>
      have hunf := hpending _ List.mem_cons_self
      have hstep : ClosedUpTo p (known ++ [root]) (rest ++ calls) := by
        intro name hname f hf callee hcallee
        rw [List.map_append]
        rcases List.mem_append.mp hname with hname | hname
        · rcases hclosed name hname f hf callee hcallee with h | h
          · exact .inl (List.mem_append_left _ h)
          · rcases List.mem_cons.mp h with rfl | h
            · exact .inl (List.mem_append_right _ List.mem_cons_self)
            · exact .inr (List.mem_append_left _ h)
        · have hroot : name = root := by simpa using hname
          subst hroot
          obtain ⟨child, hchild, hcname⟩ := hunf.exists_child hf hcallee
          exact .inr (List.mem_append_right _ (List.mem_map.mpr ⟨child, hchild, hcname⟩))
      have hall : ∀ t ∈ rest ++ calls, Unfolds p t := by
        intro t ht
        rcases List.mem_append.mp ht with ht | ht
        · exact hpending t (List.mem_cons_of_mem _ ht)
        · cases hunf with
          | node _ _ _ _ hcalls => exact hcalls t ht
      obtain ⟨hout, hroots⟩ := ih hall hstep
      refine ⟨hout, fun t ht => ?_⟩
      rcases List.mem_cons.mp ht with rfl | ht
      · exact mem_discoverFrom_of_known (List.mem_append_right _ List.mem_cons_self)
      · exact hroots t (List.mem_append_left _ ht)

/-- A list closed under calls that holds the root of an unfolding holds all its
names. -/
theorem mem_of_closed {known : List String} (hclosed : ClosedUpTo p known []) {t u : CallTree}
    (hu : Unfolds p u) (hroot : u.name ∈ known) (h : Within t u) : t.name ∈ known := by
  induction h with
  | refl => exact hroot
  | @under name calls child hchild _ ih =>
      cases hu with
      | @node _ f _ hfind hcalls _ _ hall =>
          have hcallee : child.name ∈ f.calls.map (·.1) := by
            rw [← hcalls]
            exact List.mem_map_of_mem hchild
          rcases hclosed name hroot f hfind _ hcallee with h | h
          · exact ih (hall child hchild) h
          · cases h

/-- **Discovery finds exactly the names of the tree.**  That it leaves out the calls of a name it
has met already loses nothing, since one name has one tree. -/
theorem mem_discovery_iff {tree : CallTree} (h : Unfolds p tree) {name : String} :
    name ∈ tree.discovery ↔ tree.Occurs name := by
  constructor
  · intro hmem
    rcases occurs_of_mem_discoverFrom hmem with h | ⟨t, ht, ho⟩
    · cases h
    · rw [List.mem_singleton.mp ht] at ho
      exact ho
  · rintro ⟨t, ht, rfl⟩
    have hpending : ∀ t ∈ [tree], Unfolds p t := fun t ht => List.mem_singleton.mp ht ▸ h
    have hempty : ClosedUpTo p [] [tree] := by
      intro name hname
      cases hname
    obtain ⟨hclosed, hroots⟩ := closed_discoverFrom hpending hempty
    exact mem_of_closed hclosed h (hroots tree List.mem_cons_self) ht

end Discovery

section Distinct

/-- One more name for a list of distinct names. -/
theorem nodup_step {known : List String} (name : String) (h : known.Nodup) :
    (if name ∈ known then known else known ++ [name]).Nodup := by
  split
  · exact h
  · rename_i hnew
    refine List.nodup_append.mpr ⟨h, by simp, ?_⟩
    intro a ha b hb
    rw [List.mem_singleton.mp hb]
    rintro rfl
    exact hnew ha

/-- The fold behind `distinct`: it keeps a list of distinct names and adds the
given ones. -/
theorem distinct_fold (names : List String) :
    ∀ known : List String, known.Nodup →
      (names.foldl (fun known name => if name ∈ known then known else known ++ [name]) known).Nodup ∧
      ∀ name, name ∈ names.foldl
          (fun known name => if name ∈ known then known else known ++ [name]) known ↔
        name ∈ known ∨ name ∈ names := by
  induction names with
  | nil =>
      intro known h
      exact ⟨h, by simp⟩
  | cons first rest ih =>
      intro known h
      obtain ⟨hnodup, hmem⟩ := ih _ (nodup_step first h)
      refine ⟨hnodup, fun name => ?_⟩
      rw [List.foldl_cons, hmem name]
      split
      · rename_i hknown
        constructor
        · rintro (h | h)
          · exact .inl h
          · exact .inr (List.mem_cons_of_mem _ h)
        · rintro (h | h)
          · exact .inl h
          · rcases List.mem_cons.mp h with rfl | h
            · exact .inl hknown
            · exact .inr h
      · simp only [List.mem_append, List.mem_cons, List.not_mem_nil, or_false, or_assoc]

theorem nodup_distinct (names : List String) : (distinct names).Nodup :=
  (distinct_fold names [] List.nodup_nil).1

theorem mem_distinct {names : List String} {name : String} :
    name ∈ distinct names ↔ name ∈ names := by
  rw [show distinct names = names.foldl
    (fun known name => if name ∈ known then known else known ++ [name]) [] from rfl,
    (distinct_fold names [] List.nodup_nil).2 name]
  simp

end Distinct

namespace Forest

/-- The forest of a program: the main line unfolds the entry, and the other trees
unfold the installed handlers, which are functions that make no call. -/
structure Rooted (model : Model.Program) (p : Program) (forest : Forest) : Prop where
  main_unfolds : Unfolds p forest.main
  main_name : forest.main.name = model.entry
  handler_unfolds : ∀ h ∈ forest.interrupts, Unfolds p h.2
  handler_isr : ∀ h ∈ forest.interrupts, isHandler p h.2.name = true
  names : forest.interrupts.map (fun h => (h.1, h.2.name)) = model.vectors.handlers

/-- A tree of an installed handler unfolds a handler. -/
theorem unfolds_of_handlerTree {p : Program} {label : String} {tree : CallTree}
    (h : handlerTree p label = .ok tree) :
    Unfolds p tree ∧ tree.name = label ∧ isHandler p label = true := by
  unfold handlerTree at h
  cases hf : p.find? label with
  | none =>
      rw [hf] at h
      cases h
  | some f =>
      rw [hf] at h
      by_cases hisr : f.isr = true
      · have hbuild : CallTree.build p label = .ok tree := by simpa [hisr] using h
        obtain ⟨hunf, hname⟩ := unfolds_of_build hbuild
        exact ⟨hunf, hname, by simp [isHandler, hf, hisr]⟩
      · simp [hisr] at h

/-- A forest that was built is the forest of the program. -/
theorem rooted_of_build {model : Model.Program} {p : Program} {forest : Forest}
    (h : Forest.build model p = .ok forest) : Rooted model p forest := by
  unfold Forest.build at h
  split at h
  · cases h
  · split at h
    · cases h
    · obtain ⟨main, hmain, h⟩ := bind_eq_ok.mp h
      obtain ⟨interrupts, hint, h⟩ := bind_eq_ok.mp h
      cases h
      obtain ⟨hunf, hname⟩ := unfolds_of_build hmain
      have hplace : ∀ (i : Nat) (t : Nat × CallTree), interrupts[i]? = some t →
          ∃ handler, model.vectors.handlers[i]? = some handler ∧ (t.1, t.2.name) = handler ∧
            Unfolds p t.2 ∧ isHandler p t.2.name = true := by
        intro i t ht
        obtain ⟨handler, hhandler, hstep⟩ := exists_of_mapM_getElem? hint ht
        obtain ⟨tree, htree, hpair⟩ := bind_eq_ok.mp hstep
        cases hpair
        obtain ⟨hu, hn, hi⟩ := unfolds_of_handlerTree htree
        exact ⟨handler, hhandler, by rw [hn], hu, by rw [hn]; exact hi⟩
      refine ⟨hunf, hname, ?_, ?_, ?_⟩
      · intro t ht
        obtain ⟨i, hi⟩ := List.mem_iff_getElem?.mp ht
        obtain ⟨_, _, _, hu, _⟩ := hplace i t hi
        exact hu
      · intro t ht
        obtain ⟨i, hi⟩ := List.mem_iff_getElem?.mp ht
        obtain ⟨_, _, _, _, hisr⟩ := hplace i t hi
        exact hisr
      · apply List.ext_getElem?
        intro i
        rw [List.getElem?_map]
        cases ht : interrupts[i]? with
        | none =>
            have hlen := (mapM_eq_ok.mp hint).1
            rw [List.getElem?_eq_none_iff] at ht
            rw [Option.map_none, eq_comm, List.getElem?_eq_none_iff]
            omega
        | some t =>
            obtain ⟨handler, hhandler, hpair, _⟩ := hplace i t ht
            rw [hhandler, Option.map_some, hpair]

namespace Rooted

variable {model : Model.Program} {p : Program} {forest : Forest}

/-- A handler's tree is its root. -/
theorem handler_eq (hr : Rooted model p forest) {h : Nat × CallTree}
    (hh : h ∈ forest.interrupts) : h.2 = .node h.2.name [] := by
  have hcalls := (hr.handler_unfolds h hh).calls_eq_nil (hr.handler_isr h hh)
  obtain ⟨level, tree⟩ := h
  cases tree with
  | node name calls =>
      have hnil : calls = [] := hcalls
      rw [hnil]
      rfl

/-- The labels in the vector table are the roots of the handlers' trees. -/
theorem mem_handlers_iff (hr : Rooted model p forest) {label : String} :
    (∃ level, (level, label) ∈ model.vectors.handlers) ↔
      ∃ h ∈ forest.interrupts, h.2.name = label := by
  rw [← hr.names]
  constructor
  · rintro ⟨level, hmem⟩
    obtain ⟨h, hh, hpair⟩ := List.mem_map.mp hmem
    exact ⟨h, hh, congrArg Prod.snd hpair⟩
  · rintro ⟨h, hh, rfl⟩
    exact ⟨h.1, List.mem_map.mpr ⟨h, hh, rfl⟩⟩

theorem unfolds_of_mem_trees (hr : Rooted model p forest) {t : CallTree} (ht : t ∈ forest.trees) :
    Unfolds p t := by
  rcases List.mem_cons.mp ht with rfl | ht
  · exact hr.main_unfolds
  · obtain ⟨h, hh, rfl⟩ := List.mem_map.mp ht
    exact hr.handler_unfolds h hh

/-- What is reached is what occurs in the main line, and the handlers. -/
theorem mem_reachable_iff (hr : Rooted model p forest) {name : String} :
    name ∈ forest.reachable ↔
      forest.main.Occurs name ∨ ∃ h ∈ forest.interrupts, h.2.name = name := by
  rw [reachable, mem_distinct, discovery, List.mem_flatMap]
  constructor
  · rintro ⟨t, ht, hname⟩
    have ho := (mem_discovery_iff (hr.unfolds_of_mem_trees ht)).mp hname
    rcases List.mem_cons.mp ht with rfl | ht
    · exact .inl ho
    · obtain ⟨h, hh, rfl⟩ := List.mem_map.mp ht
      obtain ⟨u, hu, rfl⟩ := ho
      rw [hr.handler_eq hh] at hu
      cases hu with
      | refl => exact .inr ⟨h, hh, rfl⟩
      | under hchild _ => cases hchild
  · rintro (ho | ⟨h, hh, rfl⟩)
    · exact ⟨_, List.mem_cons_self, (mem_discovery_iff hr.main_unfolds).mpr ho⟩
    · exact ⟨h.2, List.mem_cons_of_mem _ (List.mem_map.mpr ⟨h, hh, rfl⟩),
        (mem_discovery_iff (hr.handler_unfolds h hh)).mpr (occurs_name h.2)⟩

/-- Every function that is reached is a function of the program. -/
theorem find?_of_mem_reachable (hr : Rooted model p forest) {name : String}
    (h : name ∈ forest.reachable) : ∃ f, p.find? name = some f := by
  rcases hr.mem_reachable_iff.mp h with ho | ⟨t, ht, rfl⟩
  · exact hr.main_unfolds.find?_of_occurs ho
  · exact (hr.handler_unfolds t ht).find?_of_occurs (occurs_name t.2)

end Rooted

end Forest

end Stackless.Calls
