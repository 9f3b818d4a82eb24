import Stackless.Proofs.Dataflow
import Stackless.Proofs.TypedEmission

/-!
# The lines of an op compute its value

`Machine.seen?` is what the users of an op see of it: what is in its cell, its literal, or its
address.  If the operands of an op are seen as the values that they have, its lines end, and
leave its value where its users see it (`run_op`); besides its own cell they change nothing
but the scratch register (`written_op`).
-/

namespace Stackless

open Flat (Op Instruction Offset File Width Space Var Gives Suits Context codeOf mathWidth)
open Model (MathOp CompareOp)
open Assembly
open Assembly.Emission (writes_pure writes_command writes_silent_bind writes_bind)

/-- A number that was read as a signed 32-bit number is the same word. -/
theorem ofInt_int32 (n : Nat) : BitVec.ofInt 18 (Int32.ofNat n).toInt = BitVec.ofNat 18 n := by
  apply BitVec.eq_of_toNat_eq
  rw [BitVec.toNat_ofInt, BitVec.toNat_ofNat, Int32.toInt_ofNat', Int.bmod, Int32.size]
  split <;> omega

/-- A natural number is the same word as an integer. -/
theorem ofInt_natCast (n : Nat) : BitVec.ofInt 18 (n : Int) = BitVec.ofNat 18 n :=
  BitVec.ofInt_natCast 18 n

/-- What the users of an op see of it: the address of an array, what its cell holds, or the literal
that it stands for. A port that is written to is not a value to anyone. -/
def Machine.seen? (s : Machine) (op : Op) : Option Datum :=
  match op.offset, op.instruction with
  | .absolute base, .ram _ | .absolute base, .rom _ => some (.word (BitVec.ofNat 18 base))
  | _, .portOut _ => none
  | .absolute address, x => some (s.datum ((widthOf x).file, address))
  | _, .int value => some (.word (BitVec.ofInt 18 value.toInt))
  | _, .bool value => some (.bit value)
  | _, _ => none

/-- The users of an op see a datum, if they see one. An op without a value shows anything, as nobody
asks for it. -/
def Machine.Shows (s : Machine) (op : Op) (a : Datum) : Prop :=
  ∀ b, s.seen? op = some b → b = a

/-- A word that is used as a source is seen. -/
theorem Machine.seen?_of_source {s : Machine} {op : Op} {source : Source} {kind : Width}
    (h : Writing.source? op = some source) (hkind : op.instruction.kind? = some kind)
    (hword : kind = .word) : s.seen? op = some (.word (s.word source)) := by
  obtain ⟨instruction, offset, lastUse, position⟩ := op
  have hwidth := widthOf_eq_of_kind? hkind
  subst hword
  cases offset with
  | absolute address =>
      cases instruction with
      | ram | rom =>
          cases h
          exact congrArg (some ∘ Datum.word) (ofInt_int32 address).symm
      | portOut => cases hkind
      | _ =>
          cases h
          simp only [seen?, hwidth]
          rfl
  | _ =>
      cases instruction with
      | int value =>
          cases h
          rfl
      | bool value => cases hwidth
      | _ => cases h

/-- A bit that is used is seen. -/
theorem Machine.seen?_of_address {s : Machine} {op : Op} {address : Nat}
    (h : op.offset = .absolute address) (hkind : op.instruction.kind? = some .bit) :
    s.seen? op = some (.bit (s.bits address)) := by
  obtain ⟨instruction, offset, lastUse, position⟩ := op
  have hwidth := widthOf_eq_of_kind? hkind
  cases h
  cases instruction with
  | ram | rom | portOut => cases hkind
  | _ =>
      simp only [seen?, hwidth]
      rfl

/-- The base of an array is seen. -/
theorem Machine.seen?_of_base {s : Machine} {op : Op} {base : Nat}
    (h : op.offset = .absolute base) (hbase : op.instruction.isBase = true) :
    s.seen? op = some (.word (s.word (Writing.baseOf op.instruction base))) := by
  obtain ⟨instruction, offset, lastUse, position⟩ := op
  cases h
  cases instruction with
  | register => rfl
  | ram | rom => exact congrArg (some ∘ Datum.word) (ofInt_natCast base).symm
  | _ => cases hbase

/-- What is seen of an op that has a cell of its own is in that cell. -/
theorem Machine.seen?_of_result {s : Machine} {op : Op} {file : File} {address : Nat}
    (hfile : op.instruction.resultFile? = some file) (h : op.offset = .absolute address) :
    s.seen? op = some (s.datum (file, address)) := by
  obtain ⟨instruction, offset, lastUse, position⟩ := op
  cases h
  cases instruction with
  | call function result =>
      cases result with
      | none => cases hfile
      | some width =>
          cases hfile
          rfl
  | int | bool | portIn | element | address | compare | math =>
      cases hfile
      rfl
  | _ => cases hfile

/-- Whether an instruction serves a call. -/
def Flat.Instruction.isCall : Instruction → Bool
  | .call _ _ | .parameter _ _ _ => true
  | _ => false

namespace Assembly.Writing

variable {w : Writing} {scene : Scene} {s : Machine} {values : Nat → Datum} {op : Op} {index : Nat}
variable {lines : List Line}

/-- The operands of an instruction are seen as the values that they have. -/
def Ready (w : Writing) (s : Machine) (values : Nat → Datum) (x : Instruction) : Prop :=
  ∀ r ∈ x.operands, ∀ op, w.function.body[r]? = some op → s.Shows op (values r)

/-- A word that is used is the value of its op. -/
theorem Ready.word {x : Instruction} {r : Nat} {source : Source} (h : w.Ready s values x)
    (hr : r ∈ x.operands) (hgives : Gives w.look r .word) (hsource : w.operand r = .ok source) :
    s.word source = (values r).toWord := by
  obtain ⟨op, hop, hsource⟩ := operand_eq_ok.mp hsource
  obtain ⟨y, hy, hkind⟩ := hgives
  rw [look, Flat.codeOf_getElem? hop] at hy
  cases hy
  rw [← h r hr op hop _ (Machine.seen?_of_source hsource hkind rfl)]
  rfl

/-- A bit that is used is the value of its op. -/
theorem Ready.bit {x : Instruction} {r address : Nat} (h : w.Ready s values x)
    (hr : r ∈ x.operands) (hgives : Gives w.look r .bit) (haddress : w.address r = .ok address) :
    s.bits address = (values r).toBit := by
  obtain ⟨op, hop, hoffset⟩ := address_eq_ok.mp haddress
  obtain ⟨y, hy, hkind⟩ := hgives
  rw [look, Flat.codeOf_getElem? hop] at hy
  cases hy
  rw [← h r hr op hop _ (Machine.seen?_of_address hoffset hkind)]
  rfl

/-- The base of an array that is used is the value of its op. -/
theorem Ready.base {x : Instruction} {r base : Nat} (h : w.Ready s values x)
    (hr : r ∈ x.operands) (hop : w.function.body[r]? = some op)
    (hbase : op.instruction.isBase = true) (hoffset : op.offset = .absolute base) :
    s.word (baseOf op.instruction base) = (values r).toWord := by
  rw [← h r hr op hop _ (Machine.seen?_of_base hoffset hbase)]
  rfl

/-- What it takes to have run an op: the lines end, its value is seen, the trace is the one
that it leaves, and the RAM is as before. -/
def Runs (scene : Scene) (values : Nat → Datum) (s : Machine) (op : Op) (lines : List Line) : Prop :=
  ∃ s', scene.processor.run lines s = some s' ∧
    s'.Shows op (scene.give values s.trace op.instruction).1 ∧
    s'.trace = (scene.give values s.trace op.instruction).2 ∧ s'.ram = s.ram

/-- An op whose value is put into its own cell. -/
theorem Runs.of_own {s' : Machine} {cell : File × Nat} (hop : w.function.body[index]? = some op)
    (hown : w.own? index = some cell) (hrun : scene.processor.run lines s = some s')
    (hvalue : s'.datum cell = (scene.give values s.trace op.instruction).1)
    (htrace : s'.trace = (scene.give values s.trace op.instruction).2) (hram : s'.ram = s.ram) :
    Runs scene values s op lines := by
  obtain ⟨hfile, hoffset⟩ := (own?_eq_some hop).mp hown
  refine ⟨s', hrun, fun b hb => ?_, htrace, hram⟩
  rw [Machine.seen?_of_result hfile hoffset] at hb
  rw [← hvalue]
  exact (Option.some.inj hb).symm

/-- The processor does on words what operations with two operands mean. -/
theorem reckon_eq_binary {p : Processor} {o : MathOp} {wordOp : WordOp} {a b : Word}
    (h : w.wordOp index o = .ok wordOp) (hunary : o.isUnary = false) :
    p.reckon wordOp a b = p.binary o a b := by
  cases o with
  | neg | not | logicalNot => cases hunary
  | logicalAnd | logicalOr => cases h
  | _ =>
      cases h
      rfl

theorem reckon_eq_unary {p : Processor} {o : MathOp} {wordOp : WordOp} {a b : Word}
    (h : w.wordOp index o = .ok wordOp) (hunary : o.isUnary = true) :
    p.reckon wordOp a b = Processor.unary o b := by
  cases o with
  | neg | not =>
      cases h
      rfl
  | logicalNot => cases h
  | _ => cases hunary

/-- The processor does on bits what operations with two operands mean. -/
theorem joinBits_eq_logic {o : MathOp} {bitOp : BitOp} {a b : Bool}
    (h : w.bitOp index o = .ok bitOp) (hunary : o.isUnary = false) :
    joinBits bitOp a b = logic o a b ∧ joinBits bitOp a b = joinBits bitOp b a := by
  cases o with
  | and | logicalAnd =>
      cases h
      exact ⟨rfl, Bool.and_comm a b⟩
  | or | logicalOr =>
      cases h
      exact ⟨rfl, Bool.or_comm a b⟩
  | neg | not | logicalNot => cases hunary
  | _ => cases h

/-- The processor negates bits. -/
theorem joinBits_eq_not {o : MathOp} {bitOp : BitOp} {a b : Bool}
    (h : w.bitOp index o = .ok bitOp) (hunary : o.isUnary = true) : joinBits bitOp a b = !b := by
  cases o with
  | not | logicalNot =>
      cases h
      rfl
  | neg => cases h
  | _ => cases hunary

/-- What it takes for the lines of an op to compute its value: the op is typed, its operands are
seen, and neither scratch nor its own register holds one that is needed later in the same lines. -/
structure Prepared (w : Writing) (ctx : Context) (scene : Scene) (values : Nat → Datum)
    (s : Machine) (index : Nat) (op : Op) : Prop where
  op_eq : w.function.body[index]? = some op
  suits : Suits ctx w.look op.instruction
  ready : w.Ready s values op.instruction
  /-- No word among the operands is in the scratch register, or in the register of the op. -/
  apart : ∀ r ∈ op.instruction.operands, Gives w.look r .word → ∀ source, w.operand r = .ok source →
    source ≠ .cell scratch ∧ ∀ address, w.own? index = some (.register, address) →
      source ≠ .cell address
  ram_eq : s.ram = scene.machine.ram
  port : ∀ var, op.instruction = .portIn var →
    w.addresses.find? var.text = some (scene.address var)
  /-- Named storage is seen as it is. -/
  named : op.instruction.isStorage = true → (∀ var, op.instruction ≠ .portIn var) →
    s.Shows op (scene.give values s.trace op.instruction).1

namespace Prepared

variable {ctx : Context} (h : w.Prepared ctx scene values s index op)

include h

/-- **A port that is read.** -/
theorem run_portIn {var : Var} (hinstr : op.instruction = .portIn var)
    (hlines : (w.opLines index op).Writes lines ()) : Runs scene values s op lines := by
  rw [opLines_writes, hinstr] at hlines
  obtain ⟨port, hport, address, haddress, rfl⟩ := hlines
  rw [port_eq_ok, h.port var hinstr] at hport
  cases hport
  refine .of_own h.op_eq (own?_of_address h.op_eq (by rw [hinstr]; rfl) haddress) rfl ?_ ?_ rfl
  · rw [hinstr]
    exact congrArg Datum.word (Machine.putRegister_self ..)
  · rw [hinstr]
    rfl

/-- A comparison whose outcome is in the flags, and what keeps it. -/
theorem run_kept {test : CompareOp} {width : Width} {lhs rhs : Nat} {mid : Machine}
    {first : List Line} (hinstr : op.instruction = .compare test width lhs rhs)
    (hrun : scene.processor.run first s = some mid)
    (hflags : Datum.bit (mid.flags test) = (scene.give values s.trace op.instruction).1)
    (htrace : mid.trace = s.trace) (hram : mid.ram = s.ram) :
    Runs scene values s op (first ++ kept test op) := by
  have hgive : (scene.give values s.trace op.instruction).2 = s.trace := by
    rw [hinstr]
    cases width <;> rfl
  have hfile : op.instruction.resultFile? = some .bit := by
    rw [hinstr]
    rfl
  cases haddress : op.offset.absolute? with
  | some address =>
      have hown : w.own? index = some (.bit, address) :=
        (own?_eq_some h.op_eq).mpr ⟨hfile, absolute_of_absolute? haddress⟩
      have hlines : scene.processor.run (first ++ kept test op) s =
          scene.processor.step mid (.test test address) := by
        rw [Processor.run_append, hrun, kept, haddress]
        rfl
      refine .of_own h.op_eq hown hlines ?_ ?_ hram
      · rw [← hflags]
        exact congrArg Datum.bit (Machine.putBit_self ..)
      · rw [hgive, ← htrace]
        rfl
  | none =>
      refine ⟨mid, ?_, fun b hb => ?_, htrace.trans hgive.symm, hram⟩
      · rw [Processor.run_append, hrun, kept, haddress]
        rfl
      · obtain ⟨instruction, offset, lastUse, position⟩ := op
        cases hinstr
        cases offset with
        | absolute address => cases haddress
        | _ => cases hb

/-- **A comparison.** -/
theorem run_compare {test : CompareOp} {width : Width} {lhs rhs : Nat}
    (hinstr : op.instruction = .compare test width lhs rhs)
    (hlines : (w.opLines index op).Writes lines ()) : Runs scene values s op lines := by
  have hsuits := h.suits
  have hready := h.ready
  have hapart := h.apart
  rw [hinstr] at hsuits hready hapart
  obtain ⟨hgivesLeft, hgivesRight⟩ := hsuits
  rw [opLines_writes, hinstr] at hlines
  obtain ⟨self, hself, hlines⟩ := compare_writes.mp hlines
  rw [h.op_eq] at hself
  cases hself
  cases width with
  | word =>
      obtain ⟨left, right, hleft, hright, rfl⟩ := hlines
      have hvalue : ∀ mid : Machine, mid.flags = scene.processor.orders (s.word left) (s.word right) →
          Datum.bit (mid.flags test) = (scene.give values s.trace op.instruction).1 := by
        intro mid hmid
        rw [hmid, hinstr, hready.word (by simp [Instruction.operands]) hgivesLeft hleft,
          hready.word (by simp [Instruction.operands]) hgivesRight hright]
        rfl
      cases left with
      | cell address => exact h.run_kept hinstr rfl (hvalue _ rfl) rfl rfl
      | immediate value =>
          refine h.run_kept hinstr rfl (hvalue _ ?_) rfl rfl
          have hne := (hapart rhs (by simp [Instruction.operands]) hgivesRight right hright).1
          show scene.processor.orders _ _ = _
          rw [Machine.putRegister_self, Machine.word_putRegister _ _ _ hne]
          rfl
  | bit =>
      obtain ⟨left, right, hleft, hright, rfl⟩ := hlines
      have hrun : scene.processor.run [.command (.compareBit left right)] s =
          scene.processor.step s (.compareBit left right) := rfl
      refine h.run_kept hinstr hrun ?_ rfl rfl
      show Datum.bit (orderBits (s.bits left) (s.bits right) test) = _
      rw [hinstr, hready.bit (by simp [Instruction.operands]) hgivesLeft hleft,
        hready.bit (by simp [Instruction.operands]) hgivesRight hright]
      rfl

/-- What an operation on words leaves in its target. -/
theorem run_reckoned {wordOp : WordOp} {target : Nat} {left right : Source} {result : Word}
    (hown : w.own? index = some (.register, target))
    (hvalue : (scene.give values s.trace op.instruction) = (.word result, s.trace))
    (hresult : ∀ mid : Machine, mid.registers target = s.word left →
      (right ≠ .cell target → mid.word right = s.word right) →
      scene.processor.reckon wordOp (mid.registers target) (mid.word right) = result) :
    Runs scene values s op (reckoned wordOp target left right) := by
  have hdone : ∀ mid next : Machine, mid.registers target = s.word left →
      (right ≠ .cell target → mid.word right = s.word right) →
      Datum.word ((next.putRegister target
        (scene.processor.reckon wordOp (mid.registers target) (mid.word right))).registers target) =
        (scene.give values s.trace op.instruction).1 := by
    intro mid next hleft hright
    rw [Machine.putRegister_self, hresult mid hleft hright, hvalue]
  unfold reckoned
  split
  · rename_i hsame
    refine .of_own h.op_eq hown rfl (hdone s _ ?_ fun _ => rfl) (by rw [hvalue]; rfl) rfl
    rw [hsame]
    rfl
  · refine .of_own h.op_eq hown rfl (hdone _ _ (Machine.putRegister_self ..) ?_) (by rw [hvalue]; rfl) rfl
    exact fun hne => Machine.word_putRegister _ _ _ hne

/-- **An operation on words.** -/
theorem run_mathWord {o : MathOp} {lhs : Nat} {rhs : Option Nat}
    (hinstr : op.instruction = .math o .word lhs rhs)
    (hlines : (w.opLines index op).Writes lines ()) : Runs scene values s op lines := by
  have hsuits := h.suits
  have hready := h.ready
  have hapart := h.apart
  rw [hinstr] at hsuits hready hapart
  rw [opLines_writes, hinstr] at hlines
  obtain ⟨wordOp, target, left, right, hwordOp, htarget, hleft, hright, rfl⟩ :=
    mathWord_writes.mp hlines
  have hown := own?_of_address h.op_eq (by rw [hinstr]; rfl) htarget
  cases rhs with
  | none =>
      obtain ⟨hunary, _, hgives⟩ := hsuits
      cases hright
      refine h.run_reckoned hown (by rw [hinstr]; rfl) fun mid hmid _ => ?_
      rw [reckon_eq_unary hwordOp hunary]
      show Processor.unary o (mid.registers target) = _
      rw [hmid, hready.word (by simp [Instruction.operands]) hgives hleft]
  | some rhs =>
      obtain ⟨hunary, _, hgivesLeft, hgivesRight⟩ := hsuits
      have hne := (hapart rhs (by simp [Instruction.operands]) hgivesRight right hright).2 target hown
      refine h.run_reckoned hown (by rw [hinstr]; rfl) fun mid hmid hkept => ?_
      rw [reckon_eq_binary hwordOp hunary, hmid, hkept hne,
        hready.word (by simp [Instruction.operands]) hgivesLeft hleft,
        hready.word (by simp [Instruction.operands]) hgivesRight hright]

/-- **An operation on bits.** -/
theorem run_mathBit {o : MathOp} {lhs : Nat} {rhs : Option Nat}
    (hinstr : op.instruction = .math o .bit lhs rhs)
    (hlines : (w.opLines index op).Writes lines ()) : Runs scene values s op lines := by
  have hsuits := h.suits
  have hready := h.ready
  rw [hinstr] at hsuits hready
  rw [opLines_writes, hinstr] at hlines
  obtain ⟨bitOp, target, left, hbitOp, htarget, hleft, hlines⟩ := mathBit_writes.mp hlines
  have hown := own?_of_address h.op_eq (by rw [hinstr]; rfl) htarget
  cases rhs with
  | none =>
      obtain ⟨hunary, _, hgives⟩ := hsuits
      subst hlines
      refine .of_own h.op_eq hown rfl ?_ (by rw [hinstr]; rfl) rfl
      show Datum.bit ((Machine.putBit ..).bits target) = _
      rw [Machine.putBit_self, joinBits_eq_not hbitOp hunary,
        hready.bit (by simp [Instruction.operands]) hgives hleft, hinstr]
      rfl
  | some rhs =>
      obtain ⟨hunary, _, hgivesLeft, hgivesRight⟩ := hsuits
      obtain ⟨right, hright, rfl⟩ := hlines
      have hleft := hready.bit (by simp [Instruction.operands]) hgivesLeft hleft
      have hright := hready.bit (by simp [Instruction.operands]) hgivesRight hright
      have hvalue : Datum.bit (joinBits bitOp (s.bits left) (s.bits right)) =
          (scene.give values s.trace op.instruction).1 := by
        rw [(joinBits_eq_logic hbitOp hunary).1, hleft, hright, hinstr]
        rfl
      unfold joined
      split
      · rename_i hsame
        refine .of_own h.op_eq hown rfl ?_ (by rw [hinstr]; rfl) rfl
        show Datum.bit ((Machine.putBit ..).bits target) = _
        rw [Machine.putBit_self, ← hvalue, hsame]
      · split
        · rename_i hsame
          refine .of_own h.op_eq hown rfl ?_ (by rw [hinstr]; rfl) rfl
          show Datum.bit ((Machine.putBit ..).bits target) = _
          rw [Machine.putBit_self, ← hvalue, hsame, (joinBits_eq_logic hbitOp hunary).2]
        · rename_i hne
          refine .of_own h.op_eq hown rfl ?_ (by rw [hinstr]; rfl) rfl
          show Datum.bit ((Machine.putBit ..).bits target) = _
          rw [Machine.putBit_self, Machine.putBit_self, Machine.putBit_of_ne _ _ _ (Ne.symm hne), hvalue]

/-- What is in the register of an op behind the lines for the address of an element. -/
theorem run_elementAddress {array offset : Nat}
    (hr : array ∈ op.instruction.operands ∧ offset ∈ op.instruction.operands)
    (hgives : Gives w.look offset .word ∧ ∃ base, w.look array = some base ∧ base.isBase = true)
    (hfile : op.instruction.resultFile? = some .register)
    (hlines : (w.elementAddress index array offset).Writes lines ()) :
    ∃ s' target, scene.processor.run lines s = some s' ∧
      w.own? index = some (.register, target) ∧ w.address index = .ok target ∧
      s'.registers target = (values array).toWord + (values offset).toWord ∧
      s'.trace = s.trace ∧ s'.ram = s.ram := by
  obtain ⟨hoffset, x, hx, hbase⟩ := hgives
  obtain ⟨target, source, op', base, htarget, hsource, hop', haddress, rfl⟩ :=
    elementAddress_writes.mp hlines
  have hown := own?_of_address h.op_eq hfile htarget
  rw [look, Flat.codeOf_getElem? hop'] at hx
  cases hx
  have hbaseOffset := offset_of_address hop' haddress
  have hword := h.ready.base hr.1 hop' hbase hbaseOffset
  have hne : baseOf op'.instruction base ≠ .cell target := by
    cases hinstr : op'.instruction with
    | register var =>
        have hgives : Gives w.look array .word := ⟨_, Flat.codeOf_getElem? hop', by rw [hinstr]; rfl⟩
        refine (h.apart array hr.1 hgives _ (operand_eq_ok.mpr ⟨op', hop', ?_⟩)).2 target hown
        obtain ⟨instruction, offset, lastUse, position⟩ := op'
        cases hinstr
        cases hbaseOffset
        rfl
    | ram | rom =>
        intro heq
        cases heq
    | _ =>
        rw [hinstr] at hbase
        cases hbase
  refine ⟨_, target, rfl, hown, htarget, ?_, rfl, rfl⟩
  rw [Machine.putRegister_self, Machine.putRegister_self, Machine.word_putRegister _ _ _ hne]
  show s.word source + s.word (baseOf op'.instruction base) = _
  rw [hword, h.ready.word hr.2 hoffset hsource, BitVec.add_comm]

/-- **The address of an element.** -/
theorem run_address {array offset : Nat} (hinstr : op.instruction = .address array offset)
    (hlines : (w.opLines index op).Writes lines ()) : Runs scene values s op lines := by
  have hsuits := h.suits
  rw [hinstr] at hsuits
  rw [opLines_writes, hinstr] at hlines
  obtain ⟨s', target, hrun, hown, _, hvalue, htrace, hram⟩ :=
    h.run_elementAddress (by simp [hinstr, Instruction.operands]) hsuits (by rw [hinstr]; rfl) hlines
  refine .of_own h.op_eq hown hrun ?_ (by rw [hinstr]; exact htrace) hram
  rw [hinstr]
  exact congrArg Datum.word hvalue

/-- **An element that is read.** -/
theorem run_element {space : Space} {array offset : Nat}
    (hinstr : op.instruction = .element space array offset)
    (hlines : (w.opLines index op).Writes lines ()) : Runs scene values s op lines := by
  have hsuits := h.suits
  rw [hinstr] at hsuits
  rw [opLines_writes, hinstr] at hlines
  obtain ⟨address, haddress, first, hfirst, rfl⟩ := hlines
  obtain ⟨mid, target, hrun, hown, htarget, hvalue, htrace, hram⟩ :=
    h.run_elementAddress (by simp [hinstr, Instruction.operands]) hsuits (by rw [hinstr]; rfl) hfirst
  rw [haddress] at htarget
  cases htarget
  have hlines : scene.processor.run (first ++ [.command (.load space address address)]) s =
      scene.processor.step mid (.load space address address) := by
    rw [Processor.run_append, hrun]
    rfl
  refine .of_own h.op_eq hown hlines ?_ (by rw [hinstr]; exact htrace) hram
  rw [hinstr]
  show Datum.word ((Machine.putRegister ..).registers address) = _
  rw [Machine.putRegister_self, hvalue]
  cases space with
  | ram =>
      show Datum.word (mid.ram _) = Datum.word (scene.machine.ram _)
      rw [hram, h.ram_eq]
  | rom => rfl

/-- **A literal**: it is put into its cell, or seen as it is. -/
theorem run_literal {use : Nat → Command} {a : Datum} {file : File}
    (hfile : op.instruction.resultFile? = some file)
    (hgive : scene.give values s.trace op.instruction = (a, s.trace))
    (huse : ∀ address, ∃ s', scene.processor.step s (use address) = some s' ∧
      s'.datum (file, address) = a ∧ s'.trace = s.trace ∧ s'.ram = s.ram)
    (hseen : op.offset.absolute? = none → s.seen? op = some a) :
    Runs scene values s op (loaded op use) := by
  unfold loaded
  cases haddress : op.offset.absolute? with
  | some address =>
      obtain ⟨s', hstep, hvalue, htrace, hram⟩ := huse address
      have hown : w.own? index = some (file, address) :=
        (own?_eq_some h.op_eq).mpr ⟨hfile, absolute_of_absolute? haddress⟩
      have hrun : scene.processor.run [.command (use address)] s = some s' := by
        rw [Processor.run_command, hstep]
        rfl
      exact .of_own h.op_eq hown hrun (by rw [hgive]; exact hvalue) (by rw [hgive]; exact htrace) hram
  | none =>
      refine ⟨s, rfl, fun b hb => ?_, by rw [hgive], rfl⟩
      rw [hseen haddress] at hb
      rw [hgive]
      exact (Option.some.inj hb).symm

/-- **The lines of an op without calls compute its value.**  They run to their end from any state in
which the operands are seen, leave the value where users look for it, and do not touch the RAM. -/
theorem run_op (hinner : op.instruction.isInner = true) (hcalls : op.instruction.isCall = false)
    (hlines : (w.opLines index op).Writes lines ()) : Runs scene values s op lines := by
  have hstored : (∀ var, op.instruction ≠ .portIn var) → op.instruction.isStorage = true →
      (scene.give values s.trace op.instruction).2 = s.trace → lines = [] →
      Runs scene values s op lines := by
    rintro hport hstorage hgive rfl
    exact ⟨s, rfl, h.named hstorage hport, hgive.symm, rfl⟩
  cases hinstr : op.instruction with
  | portIn var => exact h.run_portIn hinstr hlines
  | compare test width lhs rhs => exact h.run_compare hinstr hlines
  | math o width lhs rhs =>
      cases width with
      | word => exact h.run_mathWord hinstr hlines
      | bit => exact h.run_mathBit hinstr hlines
  | element space array offset => exact h.run_element hinstr hlines
  | address array offset => exact h.run_address hinstr hlines
  | int value =>
      rw [opLines_writes, hinstr] at hlines
      obtain rfl := hlines
      refine h.run_literal (by rw [hinstr]; rfl) (by rw [hinstr]; rfl) (fun address => ?_) ?_
      · exact ⟨_, rfl, congrArg Datum.word (Machine.putRegister_self ..), rfl, rfl⟩
      · intro hnone
        obtain ⟨instruction, offset, lastUse, position⟩ := op
        cases hinstr
        cases offset with
        | absolute => cases hnone
        | _ => rfl
  | bool value =>
      rw [opLines_writes, hinstr] at hlines
      obtain rfl := hlines
      refine h.run_literal (by rw [hinstr]; rfl) (by rw [hinstr]; rfl) (fun address => ?_) ?_
      · exact ⟨_, rfl, congrArg Datum.bit (Machine.putBit_self ..), rfl, rfl⟩
      · intro hnone
        obtain ⟨instruction, offset, lastUse, position⟩ := op
        cases hinstr
        cases offset with
        | absolute => cases hnone
        | _ => rfl
  | register | bit | ram | rom | portOut =>
      rw [opLines_writes, hinstr] at hlines
      refine hstored ?_ ?_ ?_ hlines
      · rw [hinstr]
        exact fun _ heq => by cases heq
      · rw [hinstr]
        rfl
      · rw [hinstr]
        rfl
  | call | parameter =>
      rw [hinstr] at hcalls
      cases hcalls
  | _ =>
      rw [hinstr] at hinner
      cases hinner

/-- **What the lines of an op without calls write**: its own cell, and the scratch register. Nothing
that another op or a variable keeps is lost by them. -/
theorem written_op (hinner : op.instruction.isInner = true) (hcalls : op.instruction.isCall = false)
    (hlines : (w.opLines index op).Writes lines ()) {cell : File × Nat}
    (hcell : cell ∈ cellsWritten lines) :
    w.own? index = some cell ∨ cell = (.register, scratch) := by
  cases wrote_of_opLines h.op_eq hlines hcell with
  | value hfile hoffset => exact .inl ((own?_eq_some h.op_eq).mpr ⟨hfile, hoffset⟩)
  | assigned hinstr | returned hinstr =>
      rw [hinstr] at hinner
      cases hinner
  | passed hinstr =>
      rw [hinstr] at hcalls
      cases hcalls
  | borrowed hborrowed =>
      unfold borrowed? at hborrowed
      split at hborrowed
      · rename_i hinstr
        rw [hinstr] at hinner
        cases hinner
      · split at hborrowed
        · cases hborrowed
          exact .inr rfl
        · cases hborrowed
      · rename_i hinstr
        rw [hinstr] at hinner
        cases hinner
      · cases hborrowed

end Prepared

end Assembly.Writing

end Stackless
