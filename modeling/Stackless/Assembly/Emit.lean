import Stackless.Assembly.Emission
import Stackless.Storage.Allocate

/-!
# From flat functions to assembly

The output holds, in this order: the widths of the address buses, the arrays of
constants, sixteen vectors, and a section for every function that can be
reached.

The vectors are jumps, to the handler of the level or else to the entry.  A
section is a heading and then, op by op, the commands for each instruction that
was not taken out.  Reads of named storage take no command: whoever uses them
names their address.

A word literal is written into the command that uses it, unless it was given a
slot.  The base of an array is an immediate word; as an operand it is read as a
signed 32-bit number.
-/

namespace Stackless.Assembly

open Model (MathOp CompareOp)
open Flat (Op Instruction Offset Width Space Var Target)
open Emission (command silent)

/-- The scratch register. -/
def scratch : Nat := 1

/-- The bit that receives truth tests. -/
def truth : Nat := 0

/-- The comparison that holds when another does not. -/
def negated : CompareOp → CompareOp
  | .eq => .ne
  | .ne => .eq
  | .gt => .le
  | .lt => .ge
  | .ge => .lt
  | .le => .gt

/-- An operation as the processor does it on words. -/
def wordOp? : MathOp → Option WordOp
  | .add => some .add
  | .sub => some .sub
  | .mul => some .mul
  | .div => some .div
  | .mod => some .mod
  | .shr => some .shr
  | .shl => some .shl
  | .neg => some .neg
  | .and => some .and
  | .or => some .or
  | .xor => some .xor
  | .not => some .inv
  | _ => none

/-- An operation as the processor does it on bits. -/
def bitOp? : MathOp → Option BitOp
  | .logicalAnd | .and => some .and
  | .logicalOr | .or => some .or
  | .logicalNot | .not => some .not
  | _ => none

/-- The width of the value that an instruction gives. -/
def widthOf : Instruction → Width
  | .bit _ | .bool _ | .compare _ _ _ _ => .bit
  | .math _ width _ _ => width
  | .call _ (some width) => width
  | _ => .word

/-- A function about to be written, with what it refers to. -/
structure Writing where
  program : Flat.Program
  /-- The addresses of the globals. -/
  addresses : Table Nat
  function : Flat.Function

namespace Writing

variable (w : Writing)

/-- A fault of the instruction at an index. -/
def fault (index : Nat) (f : Fault) : Failure :=
  Storage.faultAt w.function.label w.function.body index f

/-- The op at an index that the body must have. -/
def op (index : Nat) : Except Failure Op :=
  orTrap w.function.body[index]?

/-- The address of the op at an index. -/
def address (index : Nat) : Except Failure Nat := do
  let op ← w.op index
  match op.offset with
  | .absolute address => return address
  | _ => throw (w.fault index .bareInstruction)

/-- The value of the op at an index, as a source. -/
def operand (index : Nat) : Except Failure Source := do
  let op ← w.op index
  match op.offset, op.instruction with
  | .absolute base, .ram _ | .absolute base, .rom _ =>
    return .immediate (Int32.ofNat base).toInt
  | .absolute address, _ => return .cell address
  | _, .int value => return .immediate value.toInt
  | _, .bool value => return .immediate (if value then 1 else 0)
  | _, _ => throw (w.fault index .bareOperand)

/-- The address of a port. -/
def port (index : Nat) (var : Var) : Except Failure Nat :=
  match w.addresses.find? var.text with
  | some address => .ok address
  | none => .error (w.fault index .barePort)

/-- The address of a named slot of a function. -/
def slot (index : Nat) (label name : String) : Except Failure Nat :=
  match (w.program.find? label).bind fun f => f.locals.find? name with
  | some (.absolute address) => .ok address
  | _ => .error (w.fault index (.noSlot name label))

/-- An operation on words. -/
def wordOp (index : Nat) (op : MathOp) : Except Failure WordOp :=
  match wordOp? op with
  | some op => .ok op
  | none => .error (w.fault index .logicalOnWords)

/-- An operation on bits. -/
def bitOp (index : Nat) (op : MathOp) : Except Failure BitOp :=
  match bitOp? op with
  | some op => .ok op
  | none => .error (w.fault index .arithmeticOnBits)

/-- Copies a value; a bit that is already where it belongs is not copied. -/
def copy (width : Width) (target source : Nat) : Emission Unit :=
  match width with
  | .word => command (.move target (.cell source))
  | .bit => if target = source then pure () else command (.moveBit target source)

/-- Writes the value of an op into a slot of a function: a parameter or the
result. -/
def pass (slot value : Nat) : Emission Unit := do
  let op ← silent (w.op value)
  match op.offset.absolute?, op.instruction with
  | none, .bool b => command (.setBit slot b)
  | none, .int n => command (.move slot (.immediate n.toInt))
  | _, .ram _ | _, .rom _ =>
    let base ← silent (w.address value)
    command (.move slot (.immediate base))
  | _, instruction =>
    let source ← silent (w.address value)
    copy (widthOf instruction) slot source

/-- A conditional jump.  If the condition is a comparison, its outcome is still in
the flags. -/
def branch (expected : Bool) (condition : Nat) (target : Target) : Emission Unit := do
  let op ← silent (w.op condition)
  match op.instruction with
  | .compare comparison _ _ _ =>
    command (.jumpIf (if expected then comparison else negated comparison) target.marker)
  | _ =>
    let address ← silent (w.address condition)
    command (.bit .not truth address)
    command (.jumpIf (if expected then .eq else .ne) target.marker)
  Emission.line .blank

/-- The register that holds the left-hand side of a comparison; an immediate is
put into the scratch register. -/
def leftHandSide : Source → Emission Nat
  | .cell address => pure address
  | .immediate value => do
    command (.move scratch (.immediate value))
    return scratch

/-- A comparison, and the bit that keeps its outcome if it has one. -/
def compare (index : Nat) (op : CompareOp) (width : Width) (lhs rhs : Nat) : Emission Unit := do
  match width with
  | .word =>
    let lhs ← silent (w.operand lhs)
    let lhs ← leftHandSide lhs
    let rhs ← silent (w.operand rhs)
    command (.compare lhs rhs)
  | .bit =>
    let lhs ← silent (w.address lhs)
    let rhs ← silent (w.address rhs)
    command (.compareBit lhs rhs)
  let self ← silent (w.op index)
  match self.offset.absolute? with
  | some address => command (.test op address)
  | none => pure ()

/-- An operation on words. -/
def mathWord (index : Nat) (op : MathOp) (lhs : Nat) (rhs : Option Nat) : Emission Unit := do
  let op ← silent (w.wordOp index op)
  let target ← silent (w.address index)
  let lhs ← silent (w.operand lhs)
  if lhs = .cell target then pure () else command (.move target lhs)
  match rhs with
  | none => command (.word op target (.cell target))
  | some rhs =>
    let rhs ← silent (w.operand rhs)
    command (.word op target rhs)

/-- An operation on bits.  A result that takes the place of an operand is computed
in place. -/
def mathBit (index : Nat) (op : MathOp) (lhs : Nat) (rhs : Option Nat) : Emission Unit := do
  let op ← silent (w.bitOp index op)
  let target ← silent (w.address index)
  let lhs ← silent (w.address lhs)
  match rhs with
  | none => command (.bit op target lhs)
  | some rhs =>
    let rhs ← silent (w.address rhs)
    if target = lhs then command (.bit op target rhs)
    else if target = rhs then command (.bit op target lhs)
    else
      command (.moveBit target lhs)
      command (.bit op target rhs)

/-- An assignment to a truth variable. -/
def assignBit (index : Nat) (op : Option MathOp) (target value : Nat) : Emission Unit := do
  let target ← silent (w.address target)
  let source ← silent (w.op value)
  match op, source.instruction with
  | none, .bool b => command (.setBit target b)
  | none, _ =>
    let source ← silent (w.address value)
    copy .bit target source
  | some op, _ =>
    let op ← silent (w.bitOp index op)
    let source ← silent (w.address value)
    command (.bit op target source)

/-- Puts a word where a register is needed; an immediate goes through the scratch
register. -/
def inRegister (source : Source) (use : Nat → Command) : Emission Unit :=
  match source with
  | .cell address => command (use address)
  | .immediate value => do
    command (.move scratch (.immediate value))
    command (use scratch)

/-- An assignment to a word variable, an array element or a port. -/
def assignWord (index : Nat) (op : Option MathOp) (target value : Nat) : Emission Unit := do
  let op ← silent (op.mapM (w.wordOp index))
  let source ← silent (w.operand value)
  let place ← silent (w.op target)
  match place.instruction with
  | .register _ =>
    let target ← silent (w.address target)
    match op with
    | none => command (.move target source)
    | some op => command (.word op target source)
  | .address _ _ =>
    let pointer ← silent (w.address target)
    match op with
    | none => inRegister source (.store pointer)
    | some op =>
      command (.load .ram scratch pointer)
      command (.word op scratch source)
      command (.store pointer scratch)
  | .portOut _ =>
    let port ← silent (w.address target)
    match op with
    | none => inRegister source (.output port)
    | some op =>
      command (.input scratch port)
      command (.word op scratch source)
      command (.output port scratch)
  | _ => silent (.error (w.fault index .invalidTarget))

/-- Leaves the address of an array element in the slot of the op at an index. -/
def elementAddress (index array element : Nat) : Emission Unit := do
  let target ← silent (w.address index)
  let element ← silent (w.operand element)
  command (.move target element)
  let source ← silent (w.op array)
  let base ← silent (w.address array)
  match source.instruction with
  | .register _ => command (.word .add target (.cell base))
  | _ => command (.word .add target (.immediate base))

/-- The lines of the op at an index. -/
def opLines (index : Nat) (op : Op) : Emission Unit :=
  match op.instruction with
  | .removed | .register _ | .bit _ | .ram _ | .rom _ | .portOut _ => pure ()
  | .marker name => Emission.line (.label name)
  | .int value =>
    match op.offset.absolute? with
    | some address => command (.move address (.immediate value.toInt))
    | none => pure ()
  | .bool value =>
    match op.offset.absolute? with
    | some address => command (.setBit address value)
    | none => pure ()
  | .portIn var => do
    let port ← silent (w.port index var)
    let address ← silent (w.address index)
    command (.input address port)
  | .jump target => command (.jump target.marker)
  | .branch expected condition target => w.branch expected condition target
  | .compare op width lhs rhs => w.compare index op width lhs rhs
  | .math op .word lhs rhs => w.mathWord index op lhs rhs
  | .math op .bit lhs rhs => w.mathBit index op lhs rhs
  | .assign op .word target value => do
    w.assignWord index op target value
    Emission.line .blank
  | .assign op .bit target value => do
    w.assignBit index op target value
    Emission.line .blank
  | .element space array element => do
    let address ← silent (w.address index)
    w.elementAddress index array element
    command (.load space address address)
  | .address array element => w.elementAddress index array element
  | .call function result => do
    command (.call function)
    match result with
    | none => pure ()
    | some width =>
      let address ← silent (w.address index)
      let slot ← silent (w.slot index function Storage.resultName)
      copy width address slot
  | .parameter function name value => do
    let slot ← silent (w.slot index function name)
    w.pass slot value
  | .ret value => do
    match value with
    | none => pure ()
    | some value =>
      let slot ← silent (w.slot index w.function.label Storage.resultName)
      w.pass slot value
    command (.ret w.function.isr)
    Emission.line .blank
  | .timer value => do
    let source ← silent (w.operand value)
    command (.timer source)
  | .level level => command (.level level)
  | .halt => command .halt
  | .pause => command .pause
  | .reset => command .reset
  | .restart => command .restart
  | .nop => command .nop

/-- The lines of ops from an index on. -/
def bodyLines : (index : Nat) → List Op → Emission Unit
  | _, [] => pure ()
  | index, op :: rest => do
    w.opLines index op
    bodyLines (index + 1) rest

end Writing

/-- The lines of the constants. -/
def constantLines (model : Model.Program) : List Line :=
  let arrays := (model.modules.values.flatMap fun m => m.symbols.values).filter
    Storage.isConstantArray
  .origin :: arrays.map (fun s => .constants s.values) ++ [.blank]

/-- The vectors: for each level the jump to its handler, or else to the entry. -/
def vectorLines (model : Model.Program) : List Line :=
  let jumps := (List.range Model.levelCount).map fun level =>
    Line.command (.jump ((model.vectors.get level).getD model.entry))
  .origin :: jumps ++ [.blank]

/-- The heading of a section. -/
def headingLines (label : String) : List Line :=
  [.rule, .comment label, .rule]

/-- The sections of the functions with the given labels. -/
def sections (p : Flat.Program) (addresses : Table Nat) : List String → Emission Unit
  | [] => pure ()
  | label :: rest =>
    match p.find? label with
    | none => silent (.error (.error (.nowhere (.undefinedFunction label))))
    | some function => do
      Emission.ofLines (headingLines label)
      Writing.bodyLines { program := p, addresses, function } 0 function.body
      sections p addresses rest

/-- The whole assembly program. -/
def emit (model : Model.Program) (p : Flat.Program) (layout : Storage.Layout) :
    Emission Unit := do
  Emission.line (.config model.config)
  Emission.ofLines (constantLines model)
  Emission.ofLines (vectorLines model)
  sections p layout.addresses layout.order

end Stackless.Assembly
