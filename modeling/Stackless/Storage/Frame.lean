import Stackless.Flat.Function
import Stackless.Model.Basic
import Stackless.Storage.SlotPool

/-!
# Slots inside a function

A **frame** is the storage of one function, seen by itself: how many slots it
needs in each file, and which slot each local and each temporary gets.  All
slots are relative to the function's own window.

1. Locals and the function's result are pinned, each to a slot of its own.
2. An assignment of a port to a word variable reads the port straight into the
   variable; the variable's op and the assignment are taken out.
3. Literals that the processor cannot take in place are given a slot.
4. Every op is visited in order, and the ones that compute a value claim a slot
   until their last use.  A comparison right before its branch needs no slot; a
   comparison copied to a truth variable is written into the variable.
-/

namespace Stackless.Storage

open Flat (Op Instruction Offset File Width Var Function)
open Model (Symbol ValueType)

/-- The pools of both files. -/
structure Pools where
  registers : SlotPool := .registers
  bits : SlotPool := .bits
  deriving Inhabited

namespace Pools

/-- Pins a slot of a file. -/
def pin (p : Pools) : File → Offset × Pools
  | .register =>
    let (slot, registers) := p.registers.pin
    (.relative .register slot, { p with registers })
  | .bit =>
    let (slot, bits) := p.bits.pin
    (.relative .bit slot, { p with bits })

/-- Claims a slot for a value of a width, from `start` to `last`. -/
def claim (p : Pools) (width : Width) (start last : Nat) : Offset × Pools :=
  match width.file with
  | .register =>
    let (slot, registers) := p.registers.claim start last
    (.relative .register slot, { p with registers })
  | .bit =>
    let (slot, bits) := p.bits.claim start last
    (.relative .bit slot, { p with bits })

end Pools

/-- The file that holds values of a type. -/
def fileOf : ValueType → File
  | .bool => .bit
  | _ => .register

/-- The name under which the slot of the result is kept. -/
def resultName : String := "return"

/-- Pins locals in order.  A local is a single register, a single bit, or a
constant, which needs no slot. -/
def pinLocals (pools : Pools) (locals : Table Offset) :
    List (String × Symbol) → Except Failure (Pools × Table Offset)
  | [] => .ok (pools, locals)
  | (name, symbol) :: rest =>
    match symbol.storage, decide (symbol.count = 1) with
    | .register, true =>
      let (offset, pools) := pools.pin .register
      pinLocals pools (locals.insert name offset) rest
    | .bit, true =>
      let (offset, pools) := pools.pin .bit
      pinLocals pools (locals.insert name offset) rest
    | .rom, true => pinLocals pools locals rest
    | _, _ => .error (.error (.nowhere (.unsupportedStorage name)))

/-- Pins the slot of the result, if the function has one. -/
def pinResult (pools : Pools) (locals : Table Offset) :
    Option ValueType → Pools × Table Offset
  | none => (pools, locals)
  | some type =>
    let (offset, pools) := pools.pin (fileOf type)
    (pools, locals.insert resultName offset)

/-- The addresses that are known while a function is visited. -/
structure Scope where
  label : String
  globals : Table Nat
  locals : Table Offset

/-- A fault of the instruction at an index. -/
def faultAt (label : String) (body : List Op) (index : Nat) (fault : Fault) : Failure :=
  .error ⟨(body[index]?).bind (·.position), .internal label index fault⟩

namespace Scope

variable (scope : Scope) (body : List Op)

/-- The address of a global, on behalf of the instruction at an index. -/
def global (index : Nat) : Var → Except Failure Nat
  | .localVar name => .error (faultAt scope.label body index (.notGlobal name))
  | .globalVar label =>
    match scope.globals.find? label with
    | some address => .ok address
    | none => .error (faultAt scope.label body index (.noGlobal label))

/-- The offset of a variable, on behalf of the instruction at an index. -/
def var (index : Nat) : Var → Except Failure Offset
  | .localVar name =>
    match scope.locals.find? name with
    | some offset => .ok offset
    | none => .error (faultAt scope.label body index (.noLocal name))
  | .globalVar label => do
    let address ← scope.global body index (.globalVar label)
    return .absolute address

end Scope

/-- The instruction at an index that the body must have. -/
def instructionAt (body : List Op) (index : Nat) : Except Failure Instruction := do
  let op ← orTrap body[index]?
  return op.instruction

/-- Reads the port of the assignment at an index straight into its variable, if
it is one of that kind; `passed` collects the port reads. -/
def passPort (scope : Scope) (body : List Op) (passed : List Nat) (index : Nat) :
    Except Failure (List Op × List Nat) := do
  match ← instructionAt body index with
  | .assign none .word target value =>
    let place ← instructionAt body target
    let source ← instructionAt body value
    match place, source with
    | .register var, .portIn _ =>
      let offset ← scope.var body target var
      let body := body.modify value fun op => { op with offset }
      let body := (body.modify target Op.remove).modify index Op.remove
      return (body, passed ++ [value])
    | _, _ => return (body, passed)
  | _ => return (body, passed)

/-- Reads ports straight into variables wherever that can be done. -/
def passPorts (scope : Scope) (body : List Op) : Except Failure (List Op × List Nat) :=
  (List.range body.length).foldlM (fun state index => passPort scope state.1 state.2 index)
    (body, [])

/-- Whether an instruction is a word literal. -/
def isInt : Instruction → Bool
  | .int _ => true
  | _ => false

/-- Whether an instruction is a truth literal. -/
def isBool : Instruction → Bool
  | .bool _ => true
  | _ => false

/-- The indices whose instructions pass a test. -/
def keep (body : List Op) (test : Instruction → Bool) :
    List Nat → Except Failure (List Nat)
  | [] => .ok []
  | r :: rest => do
    let instruction ← instructionAt body r
    let rest ← keep body test rest
    return if test instruction then r :: rest else rest

/-- The literals that an instruction needs in a slot: a word on the left of a
comparison, and truth values wherever they are computed with or tested. -/
def literalsOf (body : List Op) (instruction : Instruction) : Except Failure (List Nat) :=
  match instruction with
  | .compare _ .word lhs _ => keep body isInt [lhs]
  | .compare _ .bit _ _ | .math _ .bit _ _ | .branch _ _ _ =>
    keep body isBool instruction.operands
  | .assign (some _) .bit _ value => keep body isBool [value]
  | _ => .ok []

/-- The literals of a body that need a slot. -/
def materialized (body : List Op) : Except Failure (List Nat) := do
  let literals ← body.mapM fun op => literalsOf body op.instruction
  return literals.flatten

/-- The truth variable to which the comparison at `index` is copied by its last
user, if that is all that happens to it. -/
def copyTarget? (body : List Op) (index last : Nat) : Except Failure (Option Var) := do
  match body[last]? with
  | some op =>
    match op.instruction with
    | .assign none .bit target value =>
      if value = index then
        match ← instructionAt body target with
        | .bit var => return some var
        | _ => return none
      else return none
    | _ => return none
  | none => return none

/-- Whether the comparison at `index` is used last by a branch. -/
def feedsBranch (body : List Op) (index last : Nat) : Bool :=
  match body[last]? with
  | some op =>
    match op.instruction with
    | .branch _ _ _ => last ≠ index
    | _ => false
  | none => false

/-- What is fixed while the ops of a function are visited. -/
structure Visit where
  scope : Scope
  body : List Op
  /-- The port reads that go straight into a variable. -/
  passed : List Nat
  /-- The literals that need a slot. -/
  literals : List Nat

namespace Visit

variable (v : Visit)

/-- The slot of a comparison, if it needs one. -/
def comparison (pools : Pools) (index last : Nat) : Except Failure (Option Offset × Pools) :=
  if feedsBranch v.body index last then .ok (none, pools)
  else do
    match ← copyTarget? v.body index last with
    | some var =>
      let offset ← v.scope.var v.body index var
      return (some offset, pools)
    | none =>
      let (offset, pools) := pools.claim .bit index last
      return (some offset, pools)

/-- A slot claimed for the value at an index. -/
def claimed (pools : Pools) (width : Width) (index last : Nat) : Option Offset × Pools :=
  let (offset, pools) := pools.claim width index last
  (some offset, pools)

/-- A jump must know where it goes. -/
def checkTarget (index : Nat) (target : Flat.Target) : Except Failure Unit :=
  match target.index with
  | some _ => .ok ()
  | none => .error (faultAt v.scope.label v.body index (.unresolvedJump target.marker))

/-- The target of an assignment must be a place. -/
def checkPlace (index target : Nat) : Except Failure Unit := do
  match ← instructionAt v.body target with
  | .register _ | .bit _ | .portOut _ | .address _ _ => return ()
  | _ => throw (faultAt v.scope.label v.body index .invalidTarget)

/-- The offset that an instruction gets, if it gets one. -/
def offset (pools : Pools) (index last : Nat) (instruction : Instruction) :
    Except Failure (Option Offset × Pools) :=
  match instruction with
  | .jump target => do
    v.checkTarget index target
    return (none, pools)
  | .branch _ _ target => do
    v.checkTarget index target
    return (none, pools)
  | .assign _ _ target _ => do
    v.checkPlace index target
    return (none, pools)
  | .register var | .bit var => do
    let offset ← v.scope.var v.body index var
    return (some offset, pools)
  | .ram var | .rom var | .portOut var => do
    let address ← v.scope.global v.body index var
    return (some (.absolute address), pools)
  | .portIn var =>
    if v.passed.contains index then .ok (none, pools)
    else do
      let _ ← v.scope.global v.body index var
      return claimed pools .word index last
  | .int _ =>
    .ok (if v.literals.contains index then claimed pools .word index last else (none, pools))
  | .bool _ =>
    .ok (if v.literals.contains index then claimed pools .bit index last else (none, pools))
  | .compare _ _ _ _ => v.comparison pools index last
  | .math _ width _ _ => .ok (claimed pools width index last)
  | .element _ _ _ | .address _ _ => .ok (claimed pools .word index last)
  | .call _ (some width) => .ok (claimed pools width index last)
  | _ => .ok (none, pools)

/-- Visits ops from an index on, and gives them their offsets. -/
def ops (pools : Pools) : (index : Nat) → List Op → Except Failure (List Op × Pools)
  | _, [] => .ok ([], pools)
  | index, op :: rest => do
    let (offset, pools) ← v.offset pools index (op.lastUse.getD index) op.instruction
    let (rest, pools) ← ops pools (index + 1) rest
    return ({ op with offset := offset.getD op.offset } :: rest, pools)

end Visit

/-- Gives slots to the locals and temporaries of a function, and counts them. -/
def frame (globals : Table Nat) (source : Model.Function) (f : Function) :
    Except Failure Function := do
  let (pools, locals) ← pinLocals {} f.locals source.symbols.entries
  let (pools, locals) := pinResult pools locals source.returns
  let scope : Scope := { label := f.label, globals, locals }
  let (body, passed) ← passPorts scope f.body
  let literals ← materialized body
  let visit : Visit := { scope, body, passed, literals }
  let (body, pools) ← visit.ops pools 0 body
  return { f with
    body
    locals
    registers := { f.registers with count := pools.registers.count }
    bits := { f.bits with count := pools.bits.count } }

end Stackless.Storage
