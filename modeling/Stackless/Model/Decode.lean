import Stackless.Json.Reader
import Stackless.Model.Program
import Stackless.Model.Spelling

/-!
# Reading program models

The reader is strict about what it looks at and indifferent to the rest.

* A **record** is an object or an array.  In an object, a field that the record
  knows may stand once; others are passed over, whatever they hold.  In an
  array the fields stand in order, and only the last ones may be missing.  A
  field without a default must be there.
* A **map** is an object; of two fields with one name the later counts.
* A **choice** is the name of an alternative, or an object whose only field is
  named for the alternative and holds its content.  An alternative without
  content may be written either way, with `null` as its content.

At most 127 containers may be open at a time.  Every decoder is told how much
**room** is left, the number of containers that may still be opened inside the
open ones; the room is also what makes the recursion end.  Values that are
passed over take no room.
-/

namespace Stackless.Model

namespace Decode

open Json (Value)

/-- How many containers may be open at once. -/
def maxNesting : Nat := 127

/-- A text. -/
def text? : Value → Option String
  | .string s => s
  | _ => none

/-- A truth value. -/
def bool? : Value → Option Bool
  | .bool b => some b
  | _ => none

/-- An unsigned 32-bit number. -/
def uint32? : Value → Option UInt32
  | .int n => if 0 ≤ n ∧ n < 4294967296 then some (UInt32.ofNat n.toNat) else none
  | _ => none

/-- A signed 32-bit number. -/
def int32? : Value → Option Int32
  | .int n => if -2147483648 ≤ n ∧ n < 2147483648 then some (Int32.ofInt n) else none
  | _ => none

/-- A value that may be `null`. -/
def nullable {α : Type} (decode : Value → Option α) : Value → Option (Option α)
  | .null => some none
  | v => (decode v).map some

/-- A field that must be there. -/
def required {α : Type} (field : Option Value) (decode : Value → Option α) : Option α :=
  field.bind decode

/-- A field with a default. -/
def defaulted {α : Type} (field : Option Value) (default : α) (decode : Value → Option α) :
    Option α :=
  match field with
  | none => some default
  | some v => decode v

/-- Opens a container: what is inside has one container less of room. -/
def enter {α : Type} (room : Nat) (inside : (inner : Nat) → inner < room → Option α) : Option α :=
  match room with
  | 0 => none
  | inner + 1 => inside inner (Nat.lt_succ_self inner)

/-- The values of a field in an object: none, or the only one. -/
def fieldOf? (fields : List (Option String × Value)) (name : String) : Option (Option Value) :=
  match fields.filter (fun f => f.1 = some name) with
  | [] => some none
  | [f] => some (some f.2)
  | _ => none

/-- The known fields of a record, in order; `none` inside stands for a missing
field. -/
def record? (names : List String) : Value → Option (List (Option Value))
  | .object fields =>
    if fields.all (fun f => f.1.isSome) then names.mapM (fieldOf? fields) else none
  | .array items =>
    if items.length ≤ names.length then
      some (items.map some ++ List.replicate (names.length - items.length) none)
    else none
  | _ => none

/-- The items of an array. -/
def items? : Value → Option (List Value)
  | .array vs => some vs
  | _ => none

/-- The fields of a map, names included. -/
def entries? : Value → Option (List (String × Value))
  | .object fields => fields.mapM fun f => f.1.map (·, f.2)
  | _ => none

/-- An alternative by its name, with its content if it is written as an object. -/
def choice? (room : Nat) : Value → Option (String × Option Value)
  | .string (some name) => some (name, none)
  | .object [(some name, content)] => if 0 < room then some (name, some content) else none
  | _ => none

/-- Whether the content of an alternative without content is written properly. -/
def isUnit : Option Value → Bool
  | none => true
  | some .null => true
  | some _ => false

/-- A list, each item with the room inside the list. -/
def list? {α : Type} (room : Nat) (decode : Nat → Value → Option α) (v : Value) :
    Option (List α) :=
  enter room fun inner _ => do
    let vs ← items? v
    vs.mapM (decode inner)

/-- A map, each value with the room inside the map. -/
def table? {α : Type} (room : Nat) (decode : Nat → Value → Option α) (v : Value) :
    Option (Table α) :=
  enter room fun inner _ => do
    let fields ← entries? v
    let entries ← fields.mapM fun f => (decode inner f.2).map (f.1, ·)
    return Table.ofList entries

/-- A member of an enumeration. -/
def member? {α : Type} (spelling : Spelling α) (room : Nat) (v : Value) : Option α := do
  let (name, content) ← choice? room v
  if isUnit content then spelling.read? name else none

/-- A type. -/
def type? (room : Nat) (v : Value) : Option ValueType :=
  member? ValueType.spelling room v

/-- An operation. -/
def mathOp? (room : Nat) (v : Value) : Option MathOp :=
  member? MathOp.spelling room v

/-- A position. -/
def position? (room : Nat) (v : Value) : Option Position :=
  enter room fun _ _ => do
    match ← record? ["file", "line"] v with
    | [file, line] =>
      let file ← required file text?
      let line ← required line uint32?
      return { file, line }
    | _ => none

/-- An expression. -/
def expr? (room : Nat) (v : Value) : Option Expr :=
  enter room fun room _ => do
    match v with
    | .object [(some kind, content)] =>
      match kind with
      | "int" => (int32? content).map .int
      | "bool" => (bool? content).map .bool
      | "var" => (text? content).map .var
      | "index" =>
        enter room fun room _ => do
          match ← record? ["array", "index"] content with
          | [array, index] =>
            let array ← required array text?
            let index ← required index fun v => expr? room v
            return .index array index
          | _ => none
      | "unary" =>
        enter room fun room _ => do
          match ← record? ["op", "operand"] content with
          | [op, operand] =>
            let op ← required op (mathOp? room)
            let operand ← required operand fun v => expr? room v
            return .unary op operand
          | _ => none
      | "binary" =>
        enter room fun room _ => do
          match ← record? ["op", "lhs", "rhs"] content with
          | [op, lhs, rhs] =>
            let op ← required op (mathOp? room)
            let lhs ← required lhs fun v => expr? room v
            let rhs ← required rhs fun v => expr? room v
            return .binary op lhs rhs
          | _ => none
      | "compare" =>
        enter room fun room _ => do
          match ← record? ["op", "lhs", "rhs"] content with
          | [op, lhs, rhs] =>
            let op ← required op (member? CompareOp.spelling room)
            let lhs ← required lhs fun v => expr? room v
            let rhs ← required rhs fun v => expr? room v
            return .compare op lhs rhs
          | _ => none
      | "call" =>
        enter room fun room _ => do
          match ← record? ["function", "arguments"] content with
          | [function, arguments] =>
            let function ← required function text?
            let arguments ← defaulted arguments [] fun v =>
              enter room fun room _ => do
                let vs ← items? v
                vs.mapM fun v => expr? room v
            return .call function arguments
          | _ => none
      | _ => none
    | _ => none
termination_by room

/-- The name and the arguments of a call. -/
def callParts? (room : Nat) (content : Value) : Option (String × List Expr) :=
  enter room fun room _ => do
    match ← record? ["function", "arguments"] content with
    | [function, arguments] =>
      let function ← required function text?
      let arguments ← defaulted arguments [] (list? room expr?)
      return (function, arguments)
    | _ => none

/-- A statement that has no parts. -/
def plainStmt? : String → Option Stmt
  | "break" => some .breakLoop
  | "continue" => some .continueLoop
  | "halt" => some .halt
  | "pause" => some .pause
  | "reset" => some .reset
  | "restart" => some .restart
  | "nop" => some .nop
  | _ => none

mutual

/-- A statement with its position. -/
def located? (room : Nat) (v : Value) : Option (Located Stmt) :=
  enter room fun room _ => do
    match ← record? ["at", "value"] v with
    | [position, value] =>
      let position ← defaulted position none (nullable (position? room))
      let value ← required value fun v => stmt? room v
      return { position, value }
    | _ => none
termination_by room

/-- A statement. -/
def stmt? (room : Nat) (v : Value) : Option Stmt := do
  let (kind, content) ← choice? room v
  match plainStmt? kind with
  | some stmt => if isUnit content then some stmt else none
  | none =>
    let content ← content
    enter room fun room _ => do
      match kind with
      | "block" =>
        enter room fun room _ => do
          let vs ← items? content
          let body ← vs.mapM fun v => located? room v
          return .block body
      | "if" =>
        enter room fun room _ => do
          match ← record? ["condition", "then", "otherwise"] content with
          | [condition, consequent, alternative] =>
            let condition ← required condition (expr? room)
            let consequent ← required consequent fun v => located? room v
            let alternative ← defaulted alternative none (nullable fun v => located? room v)
            return .branch condition consequent alternative
          | _ => none
      | "loop" => do
        let body ← located? room content
        return .loop body
      | "assign" =>
        enter room fun room _ => do
          match ← record? ["target", "op", "value"] content with
          | [target, op, value] =>
            let target ← required target (expr? room)
            let op ← defaulted op none (nullable (mathOp? room))
            let value ← required value (expr? room)
            return .assign target op value
          | _ => none
      | "call" => (callParts? room content).map fun parts => .call parts.1 parts.2
      | "return" => (nullable (expr? room) content).map .ret
      | "timer" => (expr? room content).map .timer
      | "level" => (int32? content).map .level
      | _ => none
termination_by room

end

/-- A symbol. -/
def symbol? (room : Nat) (v : Value) : Option Symbol :=
  enter room fun room _ => do
    match ← record? ["type", "storage", "count", "offset", "values"] v with
    | [type, storage, count, offset, values] =>
      let type ← required type (type? room)
      let storage ← required storage (member? Storage.spelling room)
      let count ← defaulted count 1 uint32?
      let offset ← defaulted offset none (nullable uint32?)
      let values ← defaulted values [] (list? room fun _ => int32?)
      return { type, storage, count, offset, values }
    | _ => none

/-- A parameter. -/
def parameter? (room : Nat) (v : Value) : Option Parameter :=
  enter room fun room _ => do
    match ← record? ["name", "type"] v with
    | [name, type] =>
      let name ← required name text?
      let type ← required type (type? room)
      return { name, type }
    | _ => none

/-- A function. -/
def function? (room : Nat) (v : Value) : Option Function :=
  enter room fun room _ => do
    match ← record? ["label", "isr", "returns", "parameters", "symbols", "body"] v with
    | [label, isr, returns, parameters, symbols, body] =>
      let label ← required label text?
      let isr ← defaulted isr false bool?
      let returns ← defaulted returns none (nullable (type? room))
      let parameters ← defaulted parameters [] (list? room parameter?)
      let symbols ← defaulted symbols ∅ (table? room symbol?)
      let body ← defaulted body [] (list? room located?)
      return { label, isr, returns, parameters, symbols, body }
    | _ => none

/-- A module. -/
def module? (room : Nat) (v : Value) : Option Module :=
  enter room fun room _ => do
    match ← record? ["symbols", "functions"] v with
    | [symbols, functions] =>
      let symbols ← defaulted symbols ∅ (table? room symbol?)
      let functions ← defaulted functions ∅ (table? room function?)
      return { symbols, functions }
    | _ => none

/-- The widths of the address spaces. -/
def config? (room : Nat) (v : Value) : Option HardwareConfig :=
  enter room fun _ _ => do
    match ← record? ["rom_bits", "ram_bits", "const_bits"] v with
    | [romBits, ramBits, constBits] =>
      let romBits ← required romBits uint32?
      let ramBits ← required ramBits uint32?
      let constBits ← required constBits uint32?
      return { romBits, ramBits, constBits }
    | _ => none

/-- The vector table: a list of labels indexed by level, which must all be
installable. -/
def vectors? (room : Nat) (v : Value) : Option Vectors := do
  let slots ← list? room (fun _ => nullable text?) v
  let table ← (VectorTable.ofList slots).toOption
  return table.levels

/-- A program, from the room given to it. -/
def program? (room : Nat) (v : Value) : Option Program :=
  enter room fun room _ => do
    match ← record? ["name", "config", "vectors", "modules"] v with
    | [name, config, vectors, modules] =>
      let name ← required name text?
      let config ← defaulted config {} (config? room)
      let vectors ← defaulted vectors ∅ (vectors? room)
      let modules ← required modules (table? room module?)
      return { name, config, vectors, modules }
    | _ => none

end Decode

/-- The program that a value describes. -/
def Program.decode? (v : Json.Value) : Option Program :=
  Decode.program? Decode.maxNesting v

/-- The program that a text describes. -/
def Program.parse? (text : String) : Option Program := do
  let v ← Json.read text
  Program.decode? v

end Stackless.Model
