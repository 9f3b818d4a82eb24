import Stackless.Json.Writer
import Stackless.Model.Program
import Stackless.Model.Spelling

/-!
# Writing program models

Every part of a model is an object with all its fields, except that an unknown
position, a missing fixed address and an empty list of values are left out.
Statements and expressions are objects with one field, named for the kind;
statements without parts are just that name.
-/

namespace Stackless.Model

open Json (Value)

/-- A field that is left out when it is absent. -/
def optionalField (name : String) : Option Value → List (String × Value)
  | none => []
  | some v => [(name, v)]

/-- A node with one field, named for its kind. -/
def tagged (kind : String) (content : Value) : Value :=
  .obj [(kind, content)]

/-- A table as an object, names ascending. -/
def encodeTable {α : Type} (f : α → Value) (t : Table α) : Value :=
  .obj (t.entries.map fun e => (e.1, f e.2))

/-- A position. -/
def encodePosition (p : Position) : Value :=
  .obj [("file", .str p.file), ("line", .nat p.line.toNat)]

/-- A type. -/
def encodeType (t : ValueType) : Value :=
  .str (ValueType.spelling.write t)

/-- An operation. -/
def encodeMathOp (o : MathOp) : Value :=
  .str (MathOp.spelling.write o)

/-- A comparison. -/
def encodeCompareOp (o : CompareOp) : Value :=
  .str (CompareOp.spelling.write o)

mutual

/-- An expression. -/
def encodeExpr : Expr → Value
  | .int n => tagged "int" (.int n.toInt)
  | .bool b => tagged "bool" (.bool b)
  | .var label => tagged "var" (.str label)
  | .index array index => tagged "index" (.obj [("array", .str array), ("index", encodeExpr index)])
  | .unary op operand =>
    tagged "unary" (.obj [("op", encodeMathOp op), ("operand", encodeExpr operand)])
  | .binary op lhs rhs =>
    tagged "binary"
      (.obj [("op", encodeMathOp op), ("lhs", encodeExpr lhs), ("rhs", encodeExpr rhs)])
  | .compare op lhs rhs =>
    tagged "compare"
      (.obj [("op", encodeCompareOp op), ("lhs", encodeExpr lhs), ("rhs", encodeExpr rhs)])
  | .call function arguments =>
    tagged "call"
      (.obj [("function", .str function), ("arguments", .array (encodeExprs arguments))])

/-- Expressions in order. -/
def encodeExprs : List Expr → List Value
  | [] => []
  | e :: rest => encodeExpr e :: encodeExprs rest

end

mutual

/-- A statement. -/
def encodeStmt : Stmt → Value
  | .block body => tagged "block" (.array (encodeStmts body))
  | .branch condition consequent alternative =>
    tagged "if"
      (.obj [("condition", encodeExpr condition), ("then", encodeLocated consequent),
        ("otherwise", encodeAlternative alternative)])
  | .loop body => tagged "loop" (encodeLocated body)
  | .breakLoop => .str "break"
  | .continueLoop => .str "continue"
  | .assign target op value =>
    tagged "assign"
      (.obj [("target", encodeExpr target), ("op", .ofOption encodeMathOp op),
        ("value", encodeExpr value)])
  | .call function arguments =>
    tagged "call"
      (.obj [("function", .str function), ("arguments", .array (encodeExprs arguments))])
  | .ret value => tagged "return" (.ofOption encodeExpr value)
  | .timer value => tagged "timer" (encodeExpr value)
  | .level n => tagged "level" (.int n.toInt)
  | .halt => .str "halt"
  | .pause => .str "pause"
  | .reset => .str "reset"
  | .restart => .str "restart"
  | .nop => .str "nop"

/-- A statement with its position. -/
def encodeLocated : Located Stmt → Value
  | ⟨position, stmt⟩ =>
    .obj (optionalField "at" (position.map encodePosition) ++ [("value", encodeStmt stmt)])

/-- The alternative of a conditional statement. -/
def encodeAlternative : Option (Located Stmt) → Value
  | none => .null
  | some stmt => encodeLocated stmt

/-- Statements in order. -/
def encodeStmts : List (Located Stmt) → List Value
  | [] => []
  | s :: rest => encodeLocated s :: encodeStmts rest

end

/-- A symbol. -/
def encodeSymbol (s : Symbol) : Value :=
  let values := if s.values.isEmpty then none
    else some (.array (s.values.map fun n => .int n.toInt))
  .obj ([("type", encodeType s.type), ("storage", .str (Storage.spelling.write s.storage)),
      ("count", .nat s.count.toNat)]
    ++ optionalField "offset" (s.offset.map fun n => .nat n.toNat)
    ++ optionalField "values" values)

/-- A parameter. -/
def encodeParameter (p : Parameter) : Value :=
  .obj [("name", .str p.name), ("type", encodeType p.type)]

/-- A function. -/
def encodeFunction (f : Function) : Value :=
  .obj [("label", .str f.label), ("isr", .bool f.isr), ("returns", .ofOption encodeType f.returns),
    ("parameters", .array (f.parameters.map encodeParameter)),
    ("symbols", encodeTable encodeSymbol f.symbols), ("body", .array (encodeStmts f.body))]

/-- A module. -/
def encodeModule (m : Module) : Value :=
  .obj [("symbols", encodeTable encodeSymbol m.symbols),
    ("functions", encodeTable encodeFunction m.functions)]

/-- The widths of the address spaces. -/
def encodeConfig (c : HardwareConfig) : Value :=
  .obj [("rom_bits", .nat c.romBits.toNat), ("ram_bits", .nat c.ramBits.toNat),
    ("const_bits", .nat c.constBits.toNat)]

/-- The vector table, as a list indexed by level. -/
def encodeVectors (v : Vectors) : Value :=
  .array (v.toList.map (.ofOption .str))

/-- A program. -/
def Program.encode (p : Program) : Value :=
  .obj [("name", .str p.name), ("config", encodeConfig p.config),
    ("vectors", encodeVectors p.vectors), ("modules", encodeTable encodeModule p.modules)]

end Stackless.Model
