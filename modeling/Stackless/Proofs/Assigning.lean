import Stackless.Proofs.Execution

/-!
# The lines of an assignment assign

When the value of an assignment and its place have been computed, the lines of the assignment
itself put the value where it belongs, or change what is there (`Storing.run_assign`).  Words
that go to memory or to a port may go through the scratch register, and nothing else changes.
-/

namespace Stackless

open Flat (Op Instruction Offset File Width Var Gives Suits Context)
open Model (MathOp)
open Assembly
open Assembly.Emission (writes_bind writes_line)

/-- Two machines have the same memory, trace and cells, with some cells left out. -/
structure Machine.Matches (skip : File × Nat → Prop) (s s' : Machine) : Prop where
  ram_eq : s.ram = s'.ram
  trace_eq : s.trace = s'.trace
  datum_eq : ∀ cell, ¬skip cell → s.datum cell = s'.datum cell

/-- A machine is one behind an assignment to a cell if the cell holds what was assigned, and
nothing else is different. -/
theorem Machine.Matches.put_cell {skip : File × Nat → Prop} {s base : Machine} {cell : File × Nat}
    {a : Datum} (hram : s.ram = base.ram) (htrace : s.trace = base.trace)
    (hself : s.datum cell = (base.put (.cell cell) a).datum cell)
    (hother : ∀ other, ¬skip other → other ≠ cell → s.datum other = base.datum other) :
    s.Matches skip (base.put (.cell cell) a) := by
  refine ⟨hram.trans (base.put_cell_ram a).symm, htrace.trans (base.put_cell_trace a).symm,
    fun other hskip => ?_⟩
  by_cases hsame : other = cell
  · exact hsame ▸ hself
  · exact (hother other hskip hsame).trans (base.datum_put_of_ne a hsame).symm

/-- A cell that an assignment may leave behind: the scratch register, unless it is assigned to. -/
def Location.Scratch (location : Location) (cell : File × Nat) : Prop :=
  cell = (.register, scratch) ∧ location ≠ .cell cell

namespace Assembly.Writing

variable {w : Writing} {ctx : Context} {scene : Scene} {values : Nat → Datum} {s : Machine}
variable {index target value : Nat} {change : Option MathOp} {width : Width} {place : Op}

/-- What it takes for the lines of an assignment to assign. -/
structure Storing (w : Writing) (ctx : Context) (scene : Scene) (values : Nat → Datum)
    (s : Machine) (change : Option MathOp) (width : Width) (target value : Nat) (place : Op) :
    Prop where
  place_eq : w.function.body[target]? = some place
  suits : Suits ctx w.look (.assign change width target value)
  ready : w.Ready s values (.assign change width target value)
  /-- A word is not in the scratch register, -/
  source_ne : width = .word → ∀ source, w.operand value = .ok source → source ≠ .cell scratch
  /-- nor is the address of an element. -/
  pointer_ne : w.own? target ≠ some (.register, scratch)
  named : ∀ var, place.instruction = .register var ∨ place.instruction = .bit var ∨
    place.instruction = .portOut var → place.offset = .absolute (scene.address var)
  literal : ∀ b, w.look value = some (.bool b) → values value = .bit b

namespace Storing

/-- The machine that an assignment in a state should lead to. The value is one that an op has
computed before; what the location held is read in this state. -/
def goal (scene : Scene) (values : Nat → Datum) (s : Machine) (change : Option MathOp)
    (location : Location) (value : Nat) : Machine :=
  let result := ({ scene with machine := s } : Scene).assigned location change (values value) s.trace
  { s with trace := result.2 }.put location result.1

variable (h : w.Storing ctx scene values s change width target value place)

include h

theorem place_width : place.instruction.placeWidth? = some width := by
  obtain ⟨_, _, x, hx, hwidth⟩ := h.suits
  rw [look, Flat.codeOf_getElem? h.place_eq] at hx
  cases hx
  exact hwidth

/-- The operation of a compound assignment has two operands. -/
theorem not_unary {o : MathOp} (hchange : change = some o) : o.isUnary = false := by
  obtain ⟨_, hchanges, _⟩ := h.suits
  subst hchange
  have hchanges : o.changes width = true := hchanges
  cases o with
  | neg | not | logicalNot => cases width <;> cases hchanges
  | _ => rfl

theorem word_eq {source : Source} (hword : width = .word) (hsource : w.operand value = .ok source) :
    s.word source = (values value).toWord := by
  subst hword
  obtain ⟨hvalue, _⟩ := h.suits
  exact h.ready.word (by simp [Instruction.operands]) hvalue hsource

/-- **A register.** -/
theorem run_register {var : Var} {source : Source} {wordOp : Option WordOp} {address : Nat}
    (hinstr : place.instruction = .register var) (hsource : w.operand value = .ok source)
    (hop : change.mapM (w.wordOp index) = .ok wordOp) (haddress : w.address target = .ok address) :
    ∃ s', scene.processor.run (assigned .register address wordOp source) s = some s' ∧
      s'.Matches (fun _ => False)
        (goal scene values s change (scene.place values target place.instruction) value) := by
  have hwidth : width = .word := by
    have hwidth := h.place_width
    rw [hinstr] at hwidth
    exact (Option.some.inj hwidth).symm
  have hword := h.word_eq hwidth hsource
  have hoffset := offset_of_address h.place_eq haddress
  rw [h.named var (.inl hinstr)] at hoffset
  cases hoffset
  rw [hinstr]
  cases change with
  | none =>
      cases hop
      refine ⟨_, rfl, rfl, rfl, fun cell _ => ?_⟩
      show Machine.datum _ cell = Machine.datum ((Machine.putRegister _ _ (values value).toWord)) cell
      rw [← hword]
      rfl
  | some o =>
      obtain ⟨wordOp', hwordOp, hop⟩ := bind_eq_ok.mp hop
      cases hop
      refine ⟨_, rfl, rfl, rfl, fun cell _ => ?_⟩
      show Machine.datum _ cell = Machine.datum (Machine.putRegister _ _
        (scene.processor.binary o (s.registers (scene.address var)) (values value).toWord)) cell
      rw [← reckon_eq_binary hwordOp (h.not_unary rfl), ← hword]
      rfl

/-- The register that holds the address of an element. -/
theorem pointer_eq {array offset address : Nat}
    (hinstr : place.instruction = .address array offset) (haddress : w.address target = .ok address) :
    s.registers address = (values target).toWord ∧ address ≠ scratch := by
  have hown : w.own? target = some (.register, address) :=
    own?_of_address h.place_eq (by rw [hinstr]; rfl) haddress
  constructor
  · have hfile : place.instruction.resultFile? = some .register := by
      rw [hinstr]
      rfl
    have hshows := h.ready target (by simp [Instruction.operands]) place h.place_eq _
      (Machine.seen?_of_result hfile (offset_of_address h.place_eq haddress))
    rw [← hshows]
    rfl
  · intro heq
    rw [heq] at hown
    exact h.pointer_ne hown

/-- **An element of an array.** -/
theorem run_memory {array offset : Nat} {source : Source} {wordOp : Option WordOp} {address : Nat}
    (hinstr : place.instruction = .address array offset) (hsource : w.operand value = .ok source)
    (hop : change.mapM (w.wordOp index) = .ok wordOp) (haddress : w.address target = .ok address) :
    ∃ s', scene.processor.run (assigned .memory address wordOp source) s = some s' ∧
      s'.Matches (· = (.register, scratch))
        (goal scene values s change (scene.place values target place.instruction) value) := by
  have hwidth : width = .word := by
    have hwidth := h.place_width
    rw [hinstr] at hwidth
    exact (Option.some.inj hwidth).symm
  have hword := h.word_eq hwidth hsource
  obtain ⟨hpointer, hne⟩ := h.pointer_eq hinstr haddress
  rw [hinstr]
  cases change with
  | none =>
      cases hop
      cases source with
      | cell register =>
          refine ⟨_, rfl, ?_, rfl, fun cell _ => rfl⟩
          show Function.update s.ram (s.registers address) (s.word (.cell register)) =
            Function.update s.ram (values target).toWord (values value).toWord
          rw [hpointer, hword]
      | immediate literal =>
          refine ⟨_, rfl, ?_, rfl, fun cell hcell => Machine.datum_putRegister _ _ _ hcell⟩
          show Function.update s.ram ((Machine.putRegister ..).registers address)
              ((Machine.putRegister ..).registers scratch) =
            Function.update s.ram (values target).toWord (values value).toWord
          rw [Machine.putRegister_self, Machine.putRegister_of_ne _ _ _ hne, hword]
          exact congrArg (Function.update s.ram · _) hpointer
  | some o =>
      obtain ⟨wordOp', hwordOp, hop⟩ := bind_eq_ok.mp hop
      cases hop
      refine ⟨_, rfl, ?_, rfl, fun cell hcell => ?_⟩
      · show Function.update s.ram ((Machine.putRegister ..).registers address)
            ((Machine.putRegister ..).registers scratch) =
          Function.update s.ram (values target).toWord
            (scene.processor.binary o (s.ram (values target).toWord) (values value).toWord)
        rw [Machine.putRegister_self, Machine.putRegister_of_ne _ _ _ hne,
          reckon_eq_binary hwordOp (h.not_unary rfl), Machine.putRegister_self,
          Machine.word_putRegister _ _ _ (h.source_ne hwidth source hsource)]
        show Function.update s.ram ((Machine.putRegister ..).registers address)
          (scene.processor.binary o (s.ram (s.registers address)) (s.word source)) = _
        rw [Machine.putRegister_of_ne _ _ _ hne, hpointer, hword]
      · show Machine.datum (Machine.putRegister ..) cell = _
        rw [Machine.datum_putRegister _ _ _ hcell]
        exact Machine.datum_putRegister _ _ _ hcell

/-- **A port.** -/
theorem run_port {var : Var} {source : Source} {wordOp : Option WordOp} {address : Nat}
    (hinstr : place.instruction = .portOut var) (hsource : w.operand value = .ok source)
    (hop : change.mapM (w.wordOp index) = .ok wordOp) (haddress : w.address target = .ok address) :
    ∃ s', scene.processor.run (assigned .port address wordOp source) s = some s' ∧
      s'.Matches (· = (.register, scratch))
        (goal scene values s change (scene.place values target place.instruction) value) := by
  have hwidth : width = .word := by
    have hwidth := h.place_width
    rw [hinstr] at hwidth
    exact (Option.some.inj hwidth).symm
  have hword := h.word_eq hwidth hsource
  have hoffset := offset_of_address h.place_eq haddress
  rw [h.named var (.inr (.inr hinstr))] at hoffset
  cases hoffset
  rw [hinstr]
  cases change with
  | none =>
      cases hop
      cases source with
      | cell register =>
          refine ⟨_, rfl, rfl, ?_, fun cell _ => rfl⟩
          show s.trace ++ [.wrote (scene.address var) (s.word (.cell register))] =
            s.trace ++ [.wrote (scene.address var) (values value).toWord]
          rw [hword]
      | immediate literal =>
          refine ⟨_, rfl, rfl, ?_, fun cell hcell => Machine.datum_putRegister _ _ _ hcell⟩
          show s.trace ++ [.wrote (scene.address var) ((Machine.putRegister ..).registers scratch)] =
            s.trace ++ [.wrote (scene.address var) (values value).toWord]
          rw [Machine.putRegister_self, hword]
  | some o =>
      obtain ⟨wordOp', hwordOp, hop⟩ := bind_eq_ok.mp hop
      cases hop
      refine ⟨_, rfl, rfl, ?_, fun cell hcell => ?_⟩
      · show (s.trace ++ [_]) ++ [.wrote (scene.address var)
            ((Machine.putRegister ..).registers scratch)] =
          (s.trace ++ [_]) ++ [.wrote (scene.address var) (scene.processor.binary o
            (scene.processor.input s.trace (scene.address var)) (values value).toWord)]
        rw [Machine.putRegister_self, reckon_eq_binary hwordOp (h.not_unary rfl)]
        show _ ++ [Event.wrote _ (scene.processor.binary o ((Machine.putRegister ..).registers scratch)
          ((Machine.putRegister ..).word source))] = _
        rw [Machine.putRegister_self, Machine.word_putRegister _ _ _ (h.source_ne hwidth source hsource)]
        exact congrArg (fun a => _ ++ [Event.wrote _ (scene.processor.binary o _ a)]) hword
      · show Machine.datum (Machine.putRegister ..) cell = _
        rw [Machine.datum_putRegister _ _ _ hcell]
        exact Machine.datum_putRegister _ _ _ hcell

omit h in
/-- The lines that copy a bit set it. -/
theorem run_copied {p : Processor} {s : Machine} {target source : Nat} {truth : Bool}
    (hsource : s.bits source = truth) :
    ∃ s', p.run (copied .bit target source) s = some s' ∧
      s'.Matches (fun _ => False) (s.putBit target truth) := by
  unfold copied
  dsimp only
  split
  · rename_i heq
    have hdatum : s.datum (.bit, target) = .bit truth := by
      rw [heq, Machine.datum, hsource]
    exact ⟨s, rfl, .put_cell rfl rfl (hdatum.trans (Machine.datum_put_of_datum _ _ hdatum).symm)
      fun _ _ _ => rfl⟩
  · refine ⟨_, rfl, rfl, rfl, fun cell _ => ?_⟩
    show Machine.datum (Machine.putBit ..) cell = _
    rw [hsource]
    rfl

/-- A truth literal gives its own value. -/
theorem literal_eq {source : Op} {literal : Bool} (hlook : w.look value = some source.instruction)
    (hliteral : truthLiteral? source.instruction = some literal) : values value = .bit literal := by
  refine h.literal literal ?_
  rw [hlook]
  cases hinstr : source.instruction with
  | bool b =>
      rw [hinstr] at hliteral
      exact congrArg (some ∘ Instruction.bool) (Option.some.inj hliteral)
  | _ =>
      rw [hinstr] at hliteral
      cases hliteral

/-- A bit is assigned to a truth variable. -/
theorem exists_bit (hbit : width = .bit) : ∃ var, place.instruction = .bit var := by
  have hwidth := h.place_width
  cases hplace : place.instruction with
  | bit var => exact ⟨var, rfl⟩
  | _ =>
      rw [hplace, hbit] at hwidth
      cases hwidth

/-- **A bit.** -/
theorem run_bit {lines : List Line} (hbit : width = .bit)
    (hlines : (w.assignBit index change target value).Writes lines ()) :
    ∃ s', scene.processor.run lines s = some s' ∧ s'.Matches (fun _ => False)
      (goal scene values s change (scene.place values target place.instruction) value) := by
  obtain ⟨var, hinstr⟩ := h.exists_bit hbit
  subst hbit
  obtain ⟨⟨x, hx, hkind⟩, _⟩ := h.suits
  obtain ⟨address, source, haddress, hsource, hlines⟩ := assignBit_writes.mp hlines
  have hsame : x = source.instruction := by
    rw [look, Flat.codeOf_getElem? hsource] at hx
    exact (Option.some.inj hx).symm
  subst hsame
  have hbit : ∀ from', w.address value = .ok from' → s.bits from' = (values value).toBit :=
    fun _ hfrom => h.ready.bit (by simp [Instruction.operands]) ⟨_, hx, hkind⟩ hfrom
  have hoffset := offset_of_address h.place_eq haddress
  rw [h.named var (.inr (.inl hinstr))] at hoffset
  cases hoffset
  rw [hinstr]
  cases change with
  | none =>
      cases hliteral : truthLiteral? source.instruction with
      | some literal =>
          rw [hliteral] at hlines
          dsimp only at hlines
          subst hlines
          refine ⟨_, rfl, rfl, rfl, fun cell _ => ?_⟩
          show Machine.datum (Machine.putBit ..) cell =
            Machine.datum (Machine.putBit _ _ (values value).toBit) cell
          rw [h.literal_eq hx hliteral]
          rfl
      | none =>
          rw [hliteral] at hlines
          obtain ⟨from', hfrom, rfl⟩ := hlines
          exact run_copied (hbit from' hfrom)
  | some o =>
      obtain ⟨bitOp, from', hbitOp, hfrom, rfl⟩ := hlines
      refine ⟨_, rfl, rfl, rfl, fun cell _ => ?_⟩
      show Machine.datum (Machine.putBit ..) cell = Machine.datum (Machine.putBit _ _
        (logic o (s.bits (scene.address var)) (values value).toBit)) cell
      rw [← (joinBits_eq_logic hbitOp (h.not_unary rfl)).1, ← hbit from' hfrom]
      rfl

/-- **The lines of an assignment assign.**  They run to their end, and leave the machine as the
assignment should, but for the scratch register where that is not what they assign to. -/
theorem run_assign {op : Op} {lines : List Line}
    (hinstr : op.instruction = .assign change width target value)
    (hlines : (w.opLines index op).Writes lines ()) :
    ∃ s', scene.processor.run lines s = some s' ∧
      s'.Matches (scene.place values target place.instruction).Scratch
        (goal scene values s change (scene.place values target place.instruction) value) := by
  have hmore : ∀ {skip : File × Nat → Prop} {first : List Line},
      (∀ cell, skip cell → (scene.place values target place.instruction).Scratch cell) →
      (∃ s', scene.processor.run first s = some s' ∧ s'.Matches skip
        (goal scene values s change (scene.place values target place.instruction) value)) →
      ∃ s', scene.processor.run (first ++ [.blank]) s = some s' ∧
        s'.Matches (scene.place values target place.instruction).Scratch
          (goal scene values s change (scene.place values target place.instruction) value) := by
    rintro skip first hskip ⟨s', hrun, hram, htrace, hcells⟩
    refine ⟨s', ?_, hram, htrace, fun cell hcell => hcells cell (mt (hskip cell) hcell)⟩
    rw [Processor.run_append, hrun]
    rfl
  rw [opLines_writes, hinstr] at hlines
  cases width with
  | word =>
      obtain ⟨first, hfirst, rfl⟩ := hlines
      obtain ⟨wordOp, source, place', kind, address, hop, hsource, hplace', hkind, haddress, rfl⟩ :=
        assignWord_writes.mp hfirst
      rw [h.place_eq] at hplace'
      cases hplace'
      cases hplace : place.instruction with
      | register var =>
          rw [hplace] at hkind
          cases hkind
          rw [← hplace]
          exact hmore (fun _ => False.elim) (h.run_register hplace hsource hop haddress)
      | address array offset =>
          rw [hplace] at hkind
          cases hkind
          rw [← hplace]
          refine hmore (fun cell hcell => ⟨hcell, ?_⟩) (h.run_memory hplace hsource hop haddress)
          rw [hplace]
          intro heq
          cases heq
      | portOut var =>
          rw [hplace] at hkind
          cases hkind
          rw [← hplace]
          refine hmore (fun cell hcell => ⟨hcell, ?_⟩) (h.run_port hplace hsource hop haddress)
          rw [hplace]
          intro heq
          cases heq
      | _ =>
          rw [hplace] at hkind
          cases hkind
  | bit =>
      obtain ⟨first, hfirst, rfl⟩ := hlines
      exact hmore (fun _ => False.elim) (h.run_bit rfl hfirst)

end Storing

end Assembly.Writing

end Stackless
