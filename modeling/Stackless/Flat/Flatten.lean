import Stackless.Flat.Function
import Stackless.Model.Program

/-!
# Flattening statement trees

A function's statement tree becomes a flat instruction list.  Every piece of
the tree yields a **segment**, the instructions for that piece alone, made for
the index at which the segment will stand; the segment of a larger piece is the
segments of its parts put one after another, with the jumps and markers that
join them.

* An expression yields an **evaluation**: instructions of which the last one
  holds the value.  Operands come first, from left to right.
* A condition that starts with a logical *not* is evaluated without it and the
  branch turned around.
* A conditional `break` or `continue`, also one wrapped in blocks of its own, is
  a single branch to the loop's end or start.
* Markers are named after the function and numbered in the order in which they
  are needed.

Inside a statement every instruction has the position of the innermost
enclosing statement that has one, and so has every error.  A body that does not
end in a return gets one.
-/

namespace Stackless.Flat

open Model (Expr Stmt Symbol Reference MathOp ValueType)

/-- What a function is flattened in: its program and itself. -/
structure Context where
  program : Model.Program
  function : Model.Function

/-- The instructions that compute a value.  The last one, `result`, holds it. -/
structure Evaluation where
  before : List Instruction
  result : Instruction
  width : Width

namespace Evaluation

/-- All instructions of an evaluation. -/
def code (e : Evaluation) : List Instruction :=
  e.before ++ [e.result]

/-- The index of the value, for an evaluation that starts at `start`. -/
def ref (e : Evaluation) (start : Nat) : Nat :=
  start + e.before.length

/-- The first index after an evaluation that starts at `start`. -/
def next (e : Evaluation) (start : Nat) : Nat :=
  e.ref start + 1

/-- A value that a single instruction gives. -/
def single (result : Instruction) (width : Width) : Evaluation :=
  ⟨[], result, width⟩

end Evaluation

/-- The variable that a reference stands for. -/
def Var.ofReference : Reference → Var
  | .localSymbol name => .localVar name
  | .globalSymbol module name => .globalVar (Model.qualify module name)

/-- The variable and the symbol that a label means. -/
def Context.symbol (ctx : Context) (label : String) : Except CompileError (Var × Symbol) := do
  let (reference, symbol) ← ctx.program.symbol ctx.function label
  return (Var.ofReference reference, symbol)

/-- The value of a constant that is not an array, as a literal. -/
def literalOf (symbol : Symbol) : Evaluation :=
  let value := symbol.values.head?.getD 0
  match symbol.type with
  | .bool => .single (.bool (value ≠ 0)) .bit
  | _ => .single (.int value) .word

/-- The read of a variable. -/
def readVar (var : Var) (symbol : Symbol) : Evaluation :=
  match symbol.storage with
  | .register => .single (.register var) .word
  | .bit => .single (.bit var) .bit
  | .ram => .single (.ram var) .word
  | .port => .single (.portIn var) .word
  | .rom => if symbol.isArray then .single (.rom var) .word else literalOf symbol

/-- The base of an array that can be read, with its address space. -/
def arrayBase? (var : Var) (symbol : Symbol) : Option (Instruction × Space) :=
  match symbol.storage, symbol.type with
  | .ram, _ => some (.ram var, .ram)
  | .rom, _ => some (.rom var, .rom)
  | .register, .ram => some (.register var, .ram)
  | .register, .rom => some (.register var, .rom)
  | _, _ => none

/-- The base of an array whose elements can be assigned to. -/
def writableBase? (var : Var) (symbol : Symbol) : Option Instruction :=
  match symbol.storage, symbol.type with
  | .ram, _ => some (.ram var)
  | .register, .ram => some (.register var)
  | _, _ => none

/-- A variable as the target of an assignment. -/
def writeVar? (var : Var) (symbol : Symbol) : Option Evaluation :=
  match symbol.storage with
  | .register => some (.single (.register var) .word)
  | .bit => some (.single (.bit var) .bit)
  | .port => some (.single (.portOut var) .word)
  | _ => none

/-- The width in which an operation works. -/
def mathWidth (op : MathOp) : Width :=
  if op.isLogical then .bit else .word

/-- The width of a function's result. -/
def resultWidth : ValueType → Width
  | .bool => .bit
  | _ => .word

/-- The qualified label of a called function. -/
def Context.calleeLabel (ctx : Context) (label : String) : String :=
  if label.toList.contains '.' then label else Model.qualify ctx.function.module label

/-- The function that a call means, if the call has the right number of
arguments. -/
def Context.callee (ctx : Context) (label : String) (found : Nat) :
    Except CompileError Model.Function := do
  let callee ← ctx.program.function label
  if found = callee.parameters.length then return callee
  else throw (.argumentCount label callee.parameters.length found)

/-- Passes the values at the given indices to the parameters of a function. -/
def passing (label : String) (callee : Model.Function) (refs : List Nat) : List Instruction :=
  (callee.parameters.zip refs).map fun (parameter, ref) => .parameter label parameter.name ref

/-- The value of something, or an error. -/
def orError {α : Type} (e : CompileError) : Option α → Except CompileError α
  | some a => .ok a
  | none => .error e

mutual

/-- Evaluates an expression from index `start` on. -/
def evaluate (ctx : Context) (start : Nat) : Expr → Except CompileError Evaluation
  | .int value => .ok (.single (.int value) .word)
  | .bool value => .ok (.single (.bool value) .bit)
  | .var label => do
    let (var, symbol) ← ctx.symbol label
    return readVar var symbol
  | .index label index => do
    let (var, symbol) ← ctx.symbol label
    let (array, space) ← orError (.unsupportedStorage label) (arrayBase? var symbol)
    let index ← evaluate ctx (start + 1) index
    return ⟨array :: index.code, .element space start (index.ref (start + 1)), .word⟩
  | .unary op operand => do
    let operand ← evaluate ctx start operand
    return ⟨operand.code, .math op (mathWidth op) (operand.ref start) none, mathWidth op⟩
  | .binary op lhs rhs => do
    let lhs ← evaluate ctx start lhs
    let rhs ← evaluate ctx (lhs.next start) rhs
    let sum := .math op (mathWidth op) (lhs.ref start) (some (rhs.ref (lhs.next start)))
    return ⟨lhs.code ++ rhs.code, sum, mathWidth op⟩
  | .compare op lhs rhs => do
    let lhs ← evaluate ctx start lhs
    let rhs ← evaluate ctx (lhs.next start) rhs
    let test := .compare op lhs.width (lhs.ref start) (rhs.ref (lhs.next start))
    return ⟨lhs.code ++ rhs.code, test, .bit⟩
  | .call function arguments => do
    let label := ctx.calleeLabel function
    let callee ← ctx.callee label arguments.length
    let (code, refs) ← evaluateAll ctx start arguments
    let before := code ++ passing label callee refs
    match callee.returns with
    | some type => return ⟨before, .call label (some (resultWidth type)), resultWidth type⟩
    | none =>
      throw (.internal ctx.function.label (start + before.length) (.noValue label))

/-- Evaluates expressions one after another; gives all instructions and the
indices of the values. -/
def evaluateAll (ctx : Context) (start : Nat) :
    List Expr → Except CompileError (List Instruction × List Nat)
  | [] => .ok ([], [])
  | e :: rest => do
    let value ← evaluate ctx start e
    let (code, refs) ← evaluateAll ctx (value.next start) rest
    return (value.code ++ code, value.ref start :: refs)

end

/-- Evaluates the target of an assignment. -/
def evaluatePlace (ctx : Context) (start : Nat) : Expr → Except CompileError Evaluation
  | .var label => do
    let (var, symbol) ← ctx.symbol label
    orError (.notAssignable label) (writeVar? var symbol)
  | .index label index => do
    let (var, symbol) ← ctx.symbol label
    let array ← orError (.notAssignable label) (writableBase? var symbol)
    let index ← evaluate ctx (start + 1) index
    return ⟨array :: index.code, .address start (index.ref (start + 1)), .word⟩
  | _ => .error (.notAssignable "expression")

/-- The instructions of a statement that is neither a jump nor made of other
statements. -/
def simpleCode (ctx : Context) (start : Nat) : Stmt → Except CompileError (List Instruction)
  | .assign target op value => do
    let value ← evaluate ctx start value
    let place ← evaluatePlace ctx (value.next start) target
    let ref := place.ref (value.next start)
    return value.code ++ place.code ++ [.assign op place.width ref (value.ref start)]
  | .call function arguments => do
    let label := ctx.calleeLabel function
    let callee ← ctx.callee label arguments.length
    let (code, refs) ← evaluateAll ctx start arguments
    return code ++ passing label callee refs ++ [.call label none]
  | .ret none => .ok [.ret none]
  | .ret (some value) => do
    let value ← evaluate ctx start value
    return value.code ++ [.ret (some (value.ref start))]
  | .timer value => do
    let value ← evaluate ctx start value
    return value.code ++ [.timer (value.ref start)]
  | .level level => .ok [.level level]
  | .halt => .ok [.halt]
  | .pause => .ok [.pause]
  | .reset => .ok [.reset]
  | .restart => .ok [.restart]
  | .nop => .ok [.nop]
  | _ => .ok []

/-- A condition without a leading logical *not*, and whether there was one. -/
def polarity : Expr → Expr × Bool
  | .unary .logicalNot operand => (operand, true)
  | condition => (condition, false)

/-- The markers at the start and at the end of a loop. -/
structure LoopMarkers where
  top : String
  bottom : String

/-- The two ways to leave an iteration. -/
inductive LoopExit where
  | breakLoop
  | continueLoop
  deriving DecidableEq

/-- Whether a statement is nothing but a `break` or a `continue`. -/
def loopExit? : Stmt → Option LoopExit
  | .breakLoop => some .breakLoop
  | .continueLoop => some .continueLoop
  | .block [⟨_, stmt⟩] => loopExit? stmt
  | _ => none

/-- An error at the current position. -/
def locate {α : Type} (position : Option Position) (x : Except CompileError α) :
    Except (Located CompileError) α :=
  x.mapError fun e => ⟨position, e⟩

/-- Where a `break` or `continue` goes in the innermost loop. -/
def LoopExit.target (exit : LoopExit) (loop : Option LoopMarkers) : Except CompileError Target :=
  match loop with
  | none => .error .loopControl
  | some markers =>
    match exit with
    | .breakLoop => .ok { marker := markers.bottom }
    | .continueLoop => .ok { marker := markers.top }

/-- The name of a function's marker by its number. -/
def markerName (label : String) (n : Nat) : String :=
  label ++ "." ++ toString n

/-- A piece of a body, and the number of markers named up to its end. -/
structure Segment where
  ops : List Op
  markers : Nat

/-- Instructions of one position. -/
def opsAt (position : Option Position) (code : List Instruction) : List Op :=
  code.map (Op.fresh position)

mutual

/-- Flattens a statement from index `start` on, at a position, inside a loop or
not, when `markers` markers have been named. -/
def flatten (ctx : Context) (loop : Option LoopMarkers) (position : Option Position)
    (start markers : Nat) : Stmt → Except (Located CompileError) Segment
  | .block body => flattenAll ctx loop position start markers body
  | .branch condition consequent alternative => do
    let (test, negated) := polarity condition
    let test ← locate position (evaluate ctx start test)
    let here := test.next start
    match loopExit? consequent.value with
    | some exit => do
      let target ← locate position (exit.target loop)
      let head := opsAt position (test.code ++ [.branch (!negated) (test.ref start) target])
      match alternative with
      | none => return ⟨head, markers⟩
      | some alternative => do
        let rest ← flattenLocated ctx loop position (here + 1) markers alternative
        return ⟨head ++ rest.ops, rest.markers⟩
    | none => do
      let skip := markerName ctx.function.label (markers + 1)
      let head :=
        opsAt position (test.code ++ [.branch negated (test.ref start) { marker := skip }])
      let body ← flattenLocated ctx loop position (here + 1) (markers + 1) consequent
      match alternative with
      | none => return ⟨head ++ body.ops ++ opsAt position [.marker skip], body.markers⟩
      | some alternative => do
        let exit := markerName ctx.function.label (body.markers + 1)
        let join := opsAt position [.jump { marker := exit }, .marker skip]
        let rest ← flattenLocated ctx loop position (here + 1 + body.ops.length + 2)
          (body.markers + 1) alternative
        return ⟨head ++ body.ops ++ join ++ rest.ops ++ opsAt position [.marker exit], rest.markers⟩
  | .loop body => do
    let top := markerName ctx.function.label (markers + 1)
    let bottom := markerName ctx.function.label (markers + 2)
    let body ← flattenLocated ctx (some ⟨top, bottom⟩) position (start + 1) (markers + 2) body
    let back := opsAt position [.jump { marker := top }, .marker bottom]
    return ⟨opsAt position [.marker top] ++ body.ops ++ back, body.markers⟩
  | .breakLoop => do
    let target ← locate position (LoopExit.breakLoop.target loop)
    return ⟨opsAt position [.jump target], markers⟩
  | .continueLoop => do
    let target ← locate position (LoopExit.continueLoop.target loop)
    return ⟨opsAt position [.jump target], markers⟩
  | stmt => do
    let code ← locate position (simpleCode ctx start stmt)
    return ⟨opsAt position code, markers⟩

/-- Flattens a statement that may have a position of its own. -/
def flattenLocated (ctx : Context) (loop : Option LoopMarkers) (position : Option Position)
    (start markers : Nat) : Located Stmt → Except (Located CompileError) Segment
  | ⟨own, stmt⟩ => flatten ctx loop (own.or position) start markers stmt

/-- Flattens statements one after another. -/
def flattenAll (ctx : Context) (loop : Option LoopMarkers) (position : Option Position)
    (start markers : Nat) : List (Located Stmt) → Except (Located CompileError) Segment
  | [] => .ok ⟨[], markers⟩
  | stmt :: rest => do
    let first ← flattenLocated ctx loop position start markers stmt
    let others ← flattenAll ctx loop position (start + first.ops.length) first.markers rest
    return ⟨first.ops ++ others.ops, others.markers⟩

end

/-- Whether a body ends in a return. -/
def endsInReturn (body : List Op) : Bool :=
  match body.getLast? with
  | some op => op.instruction.isReturn
  | none => false

/-- The flat body of a function: its entry marker, its statements, and a return
if they do not end in one. -/
def flatBody (ctx : Context) : Except (Located CompileError) (List Op) := do
  let segment ← flattenAll ctx none none 1 0 ctx.function.body
  let body := opsAt none [.marker ctx.function.label] ++ segment.ops
  return if endsInReturn body then body else body ++ opsAt none [.ret none]

/-- The flat form of a function. -/
def Function.ofModel (program : Model.Program) (f : Model.Function) :
    Except (Located CompileError) Function := do
  let body ← flatBody ⟨program, f⟩
  return { label := f.label, isr := f.isr, returns := f.returns, body := withLastUses body }

/-- The flat form of every function of a program, by the functions' own labels.
Modules and functions are taken in name order; of two functions with one label
the later stays. -/
def Program.ofModel (program : Model.Program) : Except (Located CompileError) Program :=
  (program.modules.values.flatMap fun m => m.functions.values).foldlM
    (fun flat f => do
      let function ← Function.ofModel program f
      return flat.insert f.label function)
    Table.empty

end Stackless.Flat
