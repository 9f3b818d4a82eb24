import Stackless.Proofs.LabelClosure

/-!
# What the main line shares with the handlers

A handler can be entered at any moment, also while a function of the main line is active, so
the two should have no function in common.  Handlers are not called, and only handlers are
installed.  So the roots are all that could be shared: the main line and the handlers are apart
unless the entry itself is installed (`Forest.main_apart_iff`).

Nothing keeps an entry from being installed.  `entry_installed_as_handler` is a program whose
only frame is that of the main line and of a handler.
-/

namespace Stackless

open Flat (Program)

namespace Calls.Forest

open CallTree

namespace Rooted

variable {model : Model.Program} {p : Program} {forest : Forest}

/-- What occurs in the tree of a handler is the handler. -/
theorem occurs_handler (hr : Rooted model p forest) {t : Nat × CallTree} {name : String}
    (ht : t ∈ forest.interrupts) (h : t.2.Occurs name) : t.2.name = name := by
  obtain ⟨u, hu, rfl⟩ := h
  rw [hr.handler_eq ht] at hu ⊢
  cases hu with
  | refl => rfl
  | under hchild _ => cases hchild

/-- **Only the entry can be shared**, and then it makes no call: handlers make none, and no function
that is called is a handler. -/
theorem eq_entry_of_shared (hr : Rooted model p forest) {t : Nat × CallTree} {name : String}
    (hmain : forest.main.Occurs name) (ht : t ∈ forest.interrupts) (h : t.2.Occurs name) :
    name = model.entry ∧ forest.main = .node name [] ∧ t.2 = .node name [] := by
  have hname := hr.occurs_handler ht h
  have hisr : isHandler p name = true := hname ▸ hr.handler_isr t ht
  obtain ⟨u, hu, hroot⟩ := hmain
  have htree : u = forest.main := by
    refine (hr.main_unfolds.eq_or_not_handler hu).resolve_right fun hplain => ?_
    rw [hroot, hisr] at hplain
    cases hplain
  subst htree
  have hcalls := hr.main_unfolds.calls_eq_nil (hroot ▸ hisr)
  refine ⟨hroot.symm.trans hr.main_name, ?_, hname ▸ hr.handler_eq ht⟩
  cases hmain : forest.main with
  | node root calls =>
      rw [hmain] at hroot hcalls
      rw [show root = name from hroot, show calls = [] from hcalls]

end Rooted

/-- **The main line and the handlers are apart just if the entry is not installed.**  If it is,
it is the only function that they share, and both trees are that function alone. -/
theorem main_apart_iff {model : Model.Program} {p : Program} {forest : Forest}
    (h : Forest.build model p = .ok forest) :
    ((∀ name, forest.main.Occurs name → ∀ t ∈ forest.interrupts, ¬t.2.Occurs name) ↔
      ∀ level, model.vectors.get level ≠ some model.entry) ∧
    ∀ name, forest.main.Occurs name → ∀ t ∈ forest.interrupts, t.2.Occurs name →
      name = model.entry ∧ forest.main = .node name [] ∧ t.2 = .node name [] := by
  have hr := rooted_of_build h
  refine ⟨⟨fun hapart level hlevel => ?_, fun hentry name hmain t ht hoccurs => ?_⟩,
    fun name hmain t ht => hr.eq_entry_of_shared hmain ht⟩
  · obtain ⟨t, ht, hname⟩ :=
      hr.mem_handlers_iff.mp ⟨level, Model.Vectors.mem_handlers_iff.mpr hlevel⟩
    exact hapart model.entry (hr.main_name ▸ occurs_name _) t ht (hname ▸ occurs_name _)
  · obtain ⟨rfl, _⟩ := hr.eq_entry_of_shared hmain ht hoccurs
    obtain ⟨level, hlevel⟩ := hr.mem_handlers_iff.mpr ⟨t, ht, hr.occurs_handler ht hoccurs⟩
    exact hentry level (Model.Vectors.mem_handlers_iff.mp hlevel)

end Calls.Forest

/-- A program of two handlers, one of which is the entry, with a handler at level 3. -/
def twoHandlers (handler : String) : Model.Program :=
  let counter (label : String) : Model.Function :=
    (({ label, isr := true } : Model.Function).addSymbol "k" .word).withBody
      [.assign (.var "k") (some .add) (.int 1)]
  let demo : Model.Module :=
    (({} : Model.Module).addFunction (counter "demo.main")).addFunction (counter "demo.tick")
  { name := "demo", modules := Table.empty.insert "demo" demo
    vectors := ⟨(List.replicate 15 none).set 2 (some handler), rfl⟩ }

/-- With another handler than the entry, `twoHandlers` has a main line apart from it. -/
theorem main_apart_iff_twoHandlers :
    ∃ p forest, Calls.Forest.build (twoHandlers "demo.tick") p = .ok forest ∧
      forest.interrupts.length = 1 ∧
      ∀ name, forest.main.Occurs name → ∀ t ∈ forest.interrupts, ¬t.2.Occurs name := by
  have hshape : (build (twoHandlers "demo.tick")).toOption.map
      (·.forest.interrupts.length) = some 1 := by decide +kernel
  obtain ⟨c, hbuild, hlength⟩ := Option.map_eq_some_iff.mp hshape
  obtain ⟨s⟩ := stages_of_build (toOption_eq_some.mp hbuild)
  refine ⟨s.simple, c.forest, s.forest_eq, hlength, ?_⟩
  refine (Calls.Forest.main_apart_iff s.forest_eq).1.mpr fun level hlevel => ?_
  have hhandler := Model.Vectors.mem_handlers_iff.mpr hlevel
  rw [show (twoHandlers "demo.tick").vectors.handlers = [(3, "demo.tick")] from rfl] at hhandler
  have hentry : (twoHandlers "demo.tick").entry ≠ "demo.tick" := by decide
  exact hentry (congrArg Prod.snd (List.mem_singleton.mp hhandler))

/-- **An entry can be installed as a handler.**  The program is accepted and its assembly can be
written, and the entry occurs in the main line and in the tree of level 3: one frame serves the
main line and the handler that interrupts it. -/
theorem entry_installed_as_handler :
    (compile (twoHandlers "demo.main")).outcome = .ok () ∧
      ∃ c p, build (twoHandlers "demo.main") = .ok c ∧
        Calls.Forest.build (twoHandlers "demo.main") p = .ok c.forest ∧
        c.forest.main.Occurs "demo.main" ∧ ∃ t ∈ c.forest.interrupts, t.2.Occurs "demo.main" := by
  have hok : (compile (twoHandlers "demo.main")).outcome.toOption = some () := by decide +kernel
  have hshape : (build (twoHandlers "demo.main")).toOption.map
      (fun c => (c.forest.main.name, c.forest.interrupts.map (·.2.name))) =
      some ("demo.main", ["demo.main"]) := by decide +kernel
  obtain ⟨c, hbuild, hshape⟩ := Option.map_eq_some_iff.mp hshape
  obtain ⟨hmain, hnames⟩ := Prod.mk.inj hshape
  have hbuild := toOption_eq_some.mp hbuild
  obtain ⟨s⟩ := stages_of_build hbuild
  have hmem : "demo.main" ∈ c.forest.interrupts.map (·.2.name) := hnames ▸ List.mem_singleton_self _
  obtain ⟨t, ht, hname⟩ := List.mem_map.mp hmem
  exact ⟨toOption_eq_some.mp hok, c, s.simple, hbuild, s.forest_eq,
    hmain ▸ Calls.CallTree.occurs_name _, t, ht, hname ▸ Calls.CallTree.occurs_name _⟩

end Stackless
