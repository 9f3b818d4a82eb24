import Stackless.Proofs.LabelClosure
import Stackless.Proofs.Sources
import Stackless.Proofs.Writes

/-!
# What the section of a function writes

A function has its window, it sees the globals, and it borrows scratch.  Beside that its
section writes only the parameters of functions that it calls (`Member.wrote_cases`).

A handler calls nothing, so nothing is left but the first three
(`handler_writes_own_or_scratch`).  But what it borrows is borrowed from whatever it
interrupts: `handlers_borrow_scratch` is a handler that writes the scratch register.
-/

namespace Stackless

open Flat (Op Instruction Offset File Width Var codeOf)
open Assembly

/-- The function under a label gives no result, and has no symbol in its place. -/
def Model.Program.Resultless (model : Model.Program) (label : String) : Prop :=
  ∀ f, model.function label = .ok f →
    f.returns = none ∧ f.symbols.find? Storage.resultName = none

namespace Stages.Member

variable {model : Model.Program} {c : Compilation} {s : Stages model c} {label : String}

/-- A function about to be written. -/
def writing (m : s.Member label) : Writing :=
  { program := c.program, addresses := c.layout.addresses, function := m.final }

/-- The cell is a global, or in the window of the function; and in the window of its own
file, if the function is kept under its label and has no result. -/
def Reaches (m : s.Member label) (cell : File × Nat) : Prop :=
  (∃ global, c.layout.addresses.find? global = some cell.2) ∨
    ∃ file, (m.final.window file).Holds cell.2 ∧
      (model.Filed → model.Resultless label → file = cell.1)

theorem Sees.reaches {m : s.Member label} {cell : File × Nat} (h : m.Sees cell) : m.Reaches cell := by
  rcases h with hholds | ⟨module, name, _, _, _, hfind⟩
  · exact .inr ⟨cell.1, hholds, fun _ _ => rfl⟩
  · exact .inl ⟨_, hfind⟩

/-- A variable is a global or in the window. -/
theorem reaches_of_variable (m : s.Member label) {i : Nat} {x : Instruction} {var : Var}
    {storage : Model.Storage} {file : File} {address : Nat}
    (hx : (codeOf m.simple.body)[i]? = some x) (hstorage : x.storage? = some (var, storage))
    (hfile : Storage.fileOf? storage = some file) (haddress : m.addressOf? var = some address) :
    m.Reaches (file, address) := by
  by_cases htidy : model.Filed ∧ model.Resultless label
  · have hkeeps := Model.Function.keepsResult_of_unnamed (htidy.2 m.source m.source_eq).2
    exact (m.sees_of_variable htidy.1 hkeeps hx hstorage hfile haddress).reaches
  · cases var with
    | globalVar global => exact .inl ⟨global, haddress⟩
    | localVar name =>
        obtain ⟨file', slot, _, hlt, rfl⟩ := m.local_address haddress
        exact .inr ⟨file', m.holds_address (Nat.lt_of_lt_of_le hlt (m.pins_le file')),
          fun hfiled hresult => absurd ⟨hfiled, hresult⟩ htidy⟩

/-- **The place of a value** is a global or in the window. -/
theorem reaches_of_value (m : s.Member label) {i : Nat} {op : Op} {file : File} {address : Nat}
    (hop : m.final.body[i]? = some op) (hfile : op.instruction.resultFile? = some file)
    (haddress : op.offset = .absolute address) : m.Reaches (file, address) := by
  rcases m.value_cases hop hfile haddress with
    ⟨width, rfl, htemp⟩ | ⟨u, t, var, hreads, hvar, rfl⟩ | ⟨u, t, var, _, htarget, _, hvar, rfl⟩
  · exact (m.sees_of_temp htemp).reaches
  · exact m.reaches_of_variable hreads.target rfl rfl hvar
  · exact m.reaches_of_variable (m.simple_of_codeOf_final htarget nofun) rfl rfl hvar

/-- The target of an assignment in the end is a place of the width of the assignment. -/
theorem placeWidth?_target (m : s.Member label) {j : Nat} {op place : Op}
    {change : Option Model.MathOp} {width : Width} {target value : Nat}
    (hop : m.final.body[j]? = some op) (hinstr : op.instruction = .assign change width target value)
    (hplace : m.final.body[target]? = some place) (hlive : place.instruction ≠ .removed) :
    place.instruction.placeWidth? = some width := by
  obtain ⟨l⟩ := m.exists_lineage
  have hassign := (m.drawn_final l.drawn).plain hop (by rw [hinstr]; nofun) (by rw [hinstr]; rfl)
  rw [hinstr] at hassign
  obtain ⟨piece⟩ := l.pieces.exists_assignPiece hassign
  have hwidth : piece.place.result.placeWidth? = some width :=
    (Flat.placeWidth?_evaluatePlace piece.place_eq).trans (congrArg some piece.width_eq.symm)
  rcases m.drawn_final l.drawn target place hplace with hremoved | ⟨x, elsewhere, hx, heq⟩
  · exact absurd hremoved hlive
  · rw [piece.target_at] at hx
    cases hx
    rw [heq, ← hwidth]
    cases hresult : piece.place.result with
    | jump | branch =>
        rw [hresult] at hwidth
        cases hwidth
    | _ => rfl

/-- **The variable that is assigned to** is a global or in the window. -/
theorem reaches_of_assigned (m : s.Member label) {j : Nat} {op place : Op}
    {change : Option Model.MathOp} {width : Width} {target value address : Nat}
    (hop : m.final.body[j]? = some op) (hinstr : op.instruction = .assign change width target value)
    (hplace : m.final.body[target]? = some place) (haddress : place.offset = .absolute address)
    (hregister : width = .word → Writing.place? place.instruction = some .register) :
    m.Reaches (width.file, address) := by
  have hplaced := m.placement hplace
  rw [haddress] at hplaced
  have hlive : place.instruction ≠ .removed := by
    intro heq
    rw [heq] at hplaced
    cases hplaced
  have hwidth := m.placeWidth?_target hop hinstr hplace hlive
  have hx := m.simple_of_codeOf_final (Flat.codeOf_getElem? hplace) hlive
  cases hinstr' : place.instruction with
  | register var | bit var =>
      rw [hinstr'] at hx hplaced hwidth
      cases hwidth
      obtain ⟨address', hvar, heq⟩ := hplaced
      cases heq
      exact m.reaches_of_variable hx rfl rfl hvar
  | portOut | address =>
      rw [hinstr'] at hregister hwidth
      cases hwidth
      cases hregister rfl
  | _ =>
      rw [hinstr'] at hwidth
      cases hwidth

/-- The slot of the result is in the window, if the function has one. -/
theorem reaches_of_returned (m : s.Member label) {file : File} {index slot : Nat}
    (h : m.writing.slot index m.final.label Storage.resultName = .ok slot) :
    m.Reaches (file, slot) := by
  obtain ⟨f, hfind, hslot⟩ := Writing.slot_eq_ok.mp h
  have hfind : c.program.find? m.final.label = some f := hfind
  rw [m.label_final, m.final_eq] at hfind
  cases hfind
  obtain ⟨file', slot', hframed, hlt, heq⟩ := m.local_slot hslot
  cases heq
  refine .inr ⟨file', m.holds_address (Nat.lt_of_lt_of_le hlt (m.pins_le file')), ?_⟩
  intro _ hresult
  obtain ⟨hreturns, hsymbol⟩ := hresult m.source m.source_eq
  rw [m.framing.result.2.1] at hframed
  have hnone := m.framing.result_none (s.simple_storage m.simple_eq).2.2 hreturns hsymbol
  rw [hframed] at hnone
  cases hnone

/-- **What the section of a function writes**: scratch that it borrows, globals, its own
window, and parameters. -/
theorem wrote_cases (m : s.Member label) {i : Nat} {op : Op} {cell : File × Nat}
    (hop : m.final.body[i]? = some op) (h : m.writing.Wrote op cell) :
    m.writing.borrowed? op = some cell ∨ m.Reaches cell ∨
      ∃ function name value, op.instruction = .parameter function name value := by
  cases h with
  | value hfile haddress => exact .inr (.inl (m.reaches_of_value hop hfile haddress))
  | assigned hinstr hplace haddress hregister =>
      exact .inr (.inl (m.reaches_of_assigned hop hinstr hplace haddress hregister))
  | passed hinstr _ => exact .inr (.inr ⟨_, _, _, hinstr⟩)
  | returned _ hslot => exact .inr (.inl (m.reaches_of_returned hslot))
  | borrowed hborrowed => exact .inl hborrowed

end Stages.Member

namespace Stages

variable {model : Model.Program} {c : Compilation}

/-- A handler calls nothing. -/
theorem not_call_of_handler (s : Stages model c) {level : Nat} {label : String}
    (h : model.vectors.get level = some label) (m : s.Member label) {op : Op} {callee : String}
    {result : Option Width} (hop : op ∈ m.simple.body) :
    op.instruction ≠ .call callee result := by
  intro hcall
  have hmem : callee ∈ m.simple.calls.map (·.1) := by
    refine List.mem_map.mpr ⟨(callee, op.position), List.mem_filterMap.mpr ⟨op, hop, ?_⟩, rfl⟩
    rw [hcall]
  obtain ⟨t, ht, rfl⟩ := s.rooted.mem_handlers_iff.mp ⟨level, Model.Vectors.mem_handlers_iff.mpr h⟩
  obtain ⟨child, hchild, _⟩ := (s.rooted.handler_unfolds t ht).exists_child m.simple_eq hmem
  rw [s.rooted.handler_eq ht] at hchild
  cases hchild

theorem not_parameter_of_handler (s : Stages model c) {level : Nat} {label : String}
    (h : model.vectors.get level = some label) (m : s.Member label) {i : Nat} {op : Op}
    {function name : String} {value : Nat} (hop : m.final.body[i]? = some op) :
    op.instruction ≠ .parameter function name value := by
  intro hparam
  obtain ⟨_, _, _, _, _, hpassing, _⟩ := m.exists_code
  obtain ⟨old, hold, hsame⟩ := m.simple_of_final hop (by rw [hparam]; nofun)
  obtain ⟨call, hmem, result, hcall⟩ := hpassing.exists_call hold (hsame.trans hparam)
  exact s.not_call_of_handler h m hmem hcall

end Stages

/-- **What a handler writes.**  Take a program whose assembly can be written, and the
handler of a level.  Its section writes globals, its own window, and the scratch cells
that its ops borrow; and these it writes indeed. -/
theorem handler_writes_own_or_scratch {model : Model.Program} {level : Nat} {handler : String}
    (h : (compile model).outcome = .ok ()) (hlevel : model.vectors.get level = some handler) :
    ∃ c F, build model = .ok c ∧ handler ∈ c.layout.order ∧ c.program.find? handler = some F ∧
      (∀ cell ∈ cellsWritten (sectionLines c.program c.layout.addresses handler),
        (∃ op ∈ F.body, Writing.borrowed? ⟨c.program, c.layout.addresses, F⟩ op = some cell) ∨
        (∃ global, c.layout.addresses.find? global = some cell.2) ∨
        ∃ file, (F.window file).Holds cell.2 ∧
          (model.Filed → model.Resultless handler → file = cell.1)) ∧
      ∀ op ∈ F.body, ∀ cell,
        Writing.borrowed? ⟨c.program, c.layout.addresses, F⟩ op = some cell →
        cell ∈ cellsWritten (sectionLines c.program c.layout.addresses handler) := by
  obtain ⟨c, hbuild, hall, _⟩ := compile_writes.mp (Emission.writes_of_outcome h)
  obtain ⟨s⟩ := stages_of_build hbuild
  have horder : handler ∈ c.layout.order := s.mem_order_iff.mpr ⟨handler, .inr ⟨level, hlevel⟩, .refl⟩
  obtain ⟨m⟩ := s.exists_member (s.order_eq ▸ horder)
  obtain ⟨function, hfind, hwritable⟩ := hall handler horder
  rw [m.final_eq] at hfind
  cases hfind
  refine ⟨c, m.final, hbuild, horder, m.final_eq, fun cell hcell => ?_, fun op hop cell hcell => ?_⟩
  · obtain ⟨i, op, hop, hcell⟩ := (mem_cellsWritten_section m.final_eq).mp hcell
    have hwrote : m.writing.Wrote op cell := Writing.wrote_of_opLines hop
      (Emission.writes_of_outcome (hwritable i op hop)) hcell
    rcases m.wrote_cases hop hwrote with hborrowed | hreaches | ⟨function, name, value, hparam⟩
    · exact .inl ⟨op, List.mem_of_getElem? hop, hborrowed⟩
    · exact .inr hreaches
    · exact absurd hparam (s.not_parameter_of_handler hlevel m hop)
  · obtain ⟨i, hi⟩ := List.mem_iff_getElem?.mp hop
    refine (mem_cellsWritten_section m.final_eq).mpr ⟨i, op, hi, ?_⟩
    exact Writing.mem_of_borrowed (Emission.writes_of_outcome (hwritable i op hi)) hcell

/-- A program whose handler switches a lamp on while the entry adds to another. -/
def lampSwitch : Model.Program :=
  let entry : Model.Function :=
    ({ label := "demo.main" } : Model.Function).withBody
      [.forever [.assign (.var "demo.dial") (some .add) (.int 1)]]
  let press : Model.Function :=
    ({ label := "demo.press", isr := true } : Model.Function).withBody
      [.assign (.var "demo.lamp") none (.int 1)]
  let demo : Model.Module :=
    (((({} : Model.Module).addSymbol "lamp" (.portAt 5)).addSymbol "dial" (.portAt 6)).addFunction entry
      ).addFunction press
  { name := "demo", modules := Table.empty.insert "demo" demo
    vectors := ⟨(List.replicate 15 none).set 2 (some "demo.press"), rfl⟩ }

/-- What `lampSwitch` is built into: both sections write register 1 alone, which is no
global and not in the window of the handler. -/
theorem build_lampSwitch :
    ∃ c F, build lampSwitch = .ok c ∧ c.program.find? "demo.press" = some F ∧
      cellsWritten (sectionLines c.program c.layout.addresses "demo.press") = [(.register, scratch)] ∧
      cellsWritten (sectionLines c.program c.layout.addresses "demo.main") =
        [(.register, scratch), (.register, scratch)] ∧
      (∀ file, ¬(F.window file).Holds scratch) ∧
      ∀ global, c.layout.addresses.find? global ≠ some scratch := by
  have hcells : (build lampSwitch).toOption.map (fun c =>
      (cellsWritten (sectionLines c.program c.layout.addresses "demo.press"),
        cellsWritten (sectionLines c.program c.layout.addresses "demo.main"))) =
      some ([(.register, 1)], [(.register, 1), (.register, 1)]) := by decide +kernel
  have haddresses : (build lampSwitch).toOption.map (·.layout.addresses.entries) =
      some [("demo.dial", 6), ("demo.lamp", 5)] := by decide +kernel
  have hwindow : (build lampSwitch).toOption.bind (fun c => (c.program.find? "demo.press").map
      fun F => (F.registers.base, F.bits.base + F.bits.count)) = some (2, 1) := by decide +kernel
  cases hbuild : build lampSwitch with
  | error e =>
      rw [hbuild] at hcells
      cases hcells
  | ok c =>
      rw [hbuild] at hcells haddresses hwindow
      have hcells := Option.some.inj hcells
      obtain ⟨F, hF, hsizes⟩ := Option.map_eq_some_iff.mp hwindow
      refine ⟨c, F, rfl, hF, congrArg Prod.fst hcells, congrArg Prod.snd hcells, ?_, ?_⟩
      · rintro file ⟨hle, hlt⟩
        have hbase : F.registers.base = 2 := congrArg Prod.fst hsizes
        have hend : F.bits.base + F.bits.count = 1 := congrArg Prod.snd hsizes
        cases file with
        | register =>
            have hle : F.registers.base ≤ 1 := hle
            omega
        | bit =>
            have hlt : 1 < F.bits.base + F.bits.count := hlt
            omega
      · intro global hfind
        have hmem := Table.find?_eq_some.mp hfind
        rw [show c.layout.addresses.entries = _ from Option.some.inj haddresses] at hmem
        simp [scratch] at hmem

/-- The handler of `lampSwitch` has an op that borrows the scratch register. -/
theorem handler_writes_own_or_scratch_lampSwitch :
    ∃ c F, build lampSwitch = .ok c ∧ c.program.find? "demo.press" = some F ∧
      ∃ op ∈ F.body,
        Writing.borrowed? ⟨c.program, c.layout.addresses, F⟩ op = some (.register, scratch) := by
  have hran : (compile lampSwitch).outcome.toOption = some () := by decide +kernel
  obtain ⟨c, F, hbuild, hF, hpress, _, hwindow, hglobal⟩ := build_lampSwitch
  have hlevel : lampSwitch.vectors.get 3 = some "demo.press" := rfl
  obtain ⟨c', F', hbuild', _, hF', hcells, _⟩ :=
    handler_writes_own_or_scratch (toOption_eq_some.mp hran) hlevel
  rw [hbuild] at hbuild'
  cases hbuild'
  rw [hF] at hF'
  cases hF'
  refine ⟨c, F, hbuild, hF, ?_⟩
  rcases hcells (.register, scratch) (by rw [hpress]; exact List.mem_singleton_self _) with
    hborrowed | ⟨global, hfind⟩ | ⟨file, hholds, _⟩
  · exact hborrowed
  · exact absurd hfind (hglobal global)
  · exact absurd hholds (hwindow file)

/-- **Handlers write scratch.**  The handler of `lampSwitch` writes register 1 on the way to
its port, a register that is no global and not in its window.  The entry has it in use
between its input and its output, where it can be interrupted. -/
theorem handlers_borrow_scratch :
    (compile lampSwitch).outcome = .ok () ∧ lampSwitch.vectors.get 3 = some "demo.press" ∧
      ∃ c F, build lampSwitch = .ok c ∧ c.program.find? "demo.press" = some F ∧
        (.register, scratch) ∈
          cellsWritten (sectionLines c.program c.layout.addresses "demo.press") ∧
        (∀ file, ¬(F.window file).Holds scratch) ∧
        (∀ global, c.layout.addresses.find? global ≠ some scratch) ∧
        (.register, scratch) ∈
          cellsWritten (sectionLines c.program c.layout.addresses "demo.main") := by
  have hran : (compile lampSwitch).outcome.toOption = some () := by decide +kernel
  obtain ⟨c, F, hbuild, hF, hpress, hmain, hwindow, hglobal⟩ := build_lampSwitch
  refine ⟨toOption_eq_some.mp hran, rfl, c, F, hbuild, hF, ?_, hwindow, hglobal, ?_⟩
  · rw [hpress]
    exact List.mem_singleton_self _
  · rw [hmain]
    exact List.mem_cons_self

end Stackless
