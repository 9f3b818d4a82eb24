import Stackless.Position
import Stackless.Table

/-!
# Program models

A program model is a whole program, already analysed: symbol tables of every
module, signatures of the functions, and their bodies as statement trees.  It
is what the compiler starts from and what it never changes.

Storage is part of the model.  Each symbol says in which of the processor's
five kinds of storage it lives: the register file, the bit file, the RAM, the
constants ROM or an input/output port.  A symbol with more than one element is
an **array**.

Labels are texts.  A function is known by its qualified label, module and name
with a dot between them; inside a module, names may stand alone.
-/

namespace Stackless.Model

/-- The type of a value.  Values of type `ram` and `rom` are base addresses
of arrays in the RAM and in the constants ROM. -/
inductive ValueType where
  | int
  | bool
  | ram
  | rom
  deriving DecidableEq, Inhabited

/-- The name of a type. -/
def ValueType.name : ValueType → String
  | .int => "int"
  | .bool => "bool"
  | .ram => "ram"
  | .rom => "rom"

/-- The kinds of storage. -/
inductive Storage where
  | register
  | ram
  | rom
  | bit
  | port
  deriving DecidableEq, Inhabited

/-- The short name of a kind of storage, as symbol listings show it. -/
def Storage.short : Storage → String
  | .register => "REG"
  | .ram => "RAM"
  | .rom => "ROM"
  | .bit => "BIT"
  | .port => "PORT"

/-- A variable, an array, a constant or a port. -/
structure Symbol where
  type : ValueType
  storage : Storage
  /-- The number of elements. -/
  count : UInt32 := 1
  /-- A fixed address, for ports and for bits that the hardware owns. -/
  offset : Option UInt32 := none
  /-- The elements of a constant. -/
  values : List Int32 := []
  deriving DecidableEq, Inhabited

/-- An array has more than one element. -/
def Symbol.isArray (s : Symbol) : Bool :=
  1 < s.count

/-- A formal parameter.  Its slot is a symbol of the function. -/
structure Parameter where
  name : String
  type : ValueType
  deriving DecidableEq, Inhabited

/-- Operations on words and on truth values. -/
inductive MathOp where
  | add
  | sub
  | mul
  | div
  | mod
  | shr
  | shl
  | neg
  | and
  | or
  | xor
  | not
  | logicalAnd
  | logicalOr
  | logicalNot
  deriving DecidableEq, Inhabited

/-- Whether an operation takes and gives truth values. -/
def MathOp.isLogical : MathOp → Bool
  | .logicalAnd | .logicalOr | .logicalNot => true
  | _ => false

/-- The comparisons. -/
inductive CompareOp where
  | eq
  | ne
  | gt
  | lt
  | ge
  | le
  deriving DecidableEq, Inhabited

/-- Expressions. -/
inductive Expr where
  | int (value : Int32)
  | bool (value : Bool)
  | var (label : String)
  | index (array : String) (index : Expr)
  | unary (op : MathOp) (operand : Expr)
  | binary (op : MathOp) (lhs rhs : Expr)
  | compare (op : CompareOp) (lhs rhs : Expr)
  | call (function : String) (arguments : List Expr)
  deriving Inhabited

/-- Statements.  Positions stand on the statements inside others. -/
inductive Stmt where
  | block (body : List (Located Stmt))
  | branch (condition : Expr) (consequent : Located Stmt) (alternative : Option (Located Stmt))
  | loop (body : Located Stmt)
  | breakLoop
  | continueLoop
  /-- An assignment; `op` is the operator of a compound one. -/
  | assign (target : Expr) (op : Option MathOp) (value : Expr)
  | call (function : String) (arguments : List Expr)
  | ret (value : Option Expr)
  | timer (value : Expr)
  | level (level : Int32)
  | halt
  | pause
  | reset
  | restart
  | nop
  deriving Inhabited

/-- A function. -/
structure Function where
  label : String
  /-- Whether the function is an interrupt handler. -/
  isr : Bool := false
  returns : Option ValueType := none
  parameters : List Parameter := []
  /-- The locals, parameters included. -/
  symbols : Table Symbol := ∅
  body : List (Located Stmt) := []
  deriving Inhabited

/-- A module: its globals and its functions, each under a label of its own
choice. -/
structure Module where
  symbols : Table Symbol := ∅
  functions : Table Function := ∅
  deriving Inhabited

/-- The widths of the three address spaces. -/
structure HardwareConfig where
  romBits : UInt32 := 12
  ramBits : UInt32 := 12
  constBits : UInt32 := 12
  deriving DecidableEq, Inhabited

end Stackless.Model
