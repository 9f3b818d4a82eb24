import Stackless.Model.Basic

/-!
# Flat instructions

A function is flattened into a list of instructions.  An instruction that needs
values names the instructions that compute them by their indices in the list;
control flow is written with named **markers** and jumps to them.  Nothing ever
shortens a list: an instruction that is taken out becomes `removed`, so indices
stay valid from the first phase to the last.

What a value instruction may be:

* a *literal*, `int` or `bool`;
* a *read of named storage*: `register`, `bit`, `ram`, `rom`, `portIn`; and
  `portOut`, which names a port as the target of an assignment;
* a *computed value*: `compare`, `math`, `element`, `address`, or a `call` with
  a result.
-/

namespace Stackless.Flat

open Model (MathOp CompareOp)

/-- The width of a value: a word of the register file or a bit of the bit file. -/
inductive Width where
  | word
  | bit
  deriving DecidableEq, Inhabited

/-- The address space of an array. -/
inductive Space where
  | ram
  | rom
  deriving DecidableEq, Inhabited

/-- A symbol, resolved. -/
inductive Var where
  /-- A local or parameter of the function at hand. -/
  | localVar (name : String)
  /-- A global by its qualified label. -/
  | globalVar (label : String)
  deriving DecidableEq, Inhabited

/-- The text of a variable: its name or qualified label. -/
def Var.text : Var → String
  | .localVar name => name
  | .globalVar label => label

/-- Where a jump goes: a marker by name, and its index once it is known. -/
structure Target where
  marker : String
  index : Option Nat := none
  deriving DecidableEq, Inhabited

/-- A flat instruction.  Numbers are indices of other instructions. -/
inductive Instruction where
  /-- An instruction that was taken out. -/
  | removed
  | marker (name : String)
  | jump (target : Target)
  /-- A jump that is taken when the condition has the expected value. -/
  | branch (expected : Bool) (condition : Nat) (target : Target)
  | compare (op : CompareOp) (width : Width) (lhs rhs : Nat)
  /-- An operation; one with a single operand has no right-hand side. -/
  | math (op : MathOp) (width : Width) (lhs : Nat) (rhs : Option Nat)
  | assign (op : Option MathOp) (width : Width) (target value : Nat)
  /-- A call, with the width of its result if that is used. -/
  | call (function : String) (result : Option Width)
  /-- Passes a value to a parameter of a function about to be called. -/
  | parameter (function name : String) (value : Nat)
  | ret (value : Option Nat)
  | timer (value : Nat)
  | level (level : Int32)
  | halt
  | pause
  | reset
  | restart
  | nop
  | register (var : Var)
  | bit (var : Var)
  | ram (var : Var)
  | rom (var : Var)
  | portIn (var : Var)
  | portOut (var : Var)
  /-- Reads an element of an array. -/
  | element (space : Space) (array index : Nat)
  /-- The address of an array element in the RAM, as the target of an assignment. -/
  | address (array index : Nat)
  | bool (value : Bool)
  | int (value : Int32)
  deriving DecidableEq, Inhabited

namespace Instruction

/-- The indices that an instruction names, in order. -/
def operands : Instruction → List Nat
  | .branch _ condition _ => [condition]
  | .compare _ _ lhs rhs => [lhs, rhs]
  | .math _ _ lhs rhs => lhs :: rhs.toList
  | .assign _ _ target value => [target, value]
  | .parameter _ _ value => [value]
  | .ret value => value.toList
  | .timer value => [value]
  | .element _ array index => [array, index]
  | .address array index => [array, index]
  | _ => []

/-- Whether an instruction names storage that outlives the function's
temporaries. -/
def isStorage : Instruction → Bool
  | .register _ | .bit _ | .ram _ | .rom _ | .portIn _ | .portOut _ => true
  | _ => false

/-- Whether an instruction was taken out. -/
def isRemoved : Instruction → Bool
  | .removed => true
  | _ => false

/-- Whether an instruction is a marker. -/
def isMarker : Instruction → Bool
  | .marker _ => true
  | _ => false

/-- Whether an instruction is an unconditional jump. -/
def isJump : Instruction → Bool
  | .jump _ => true
  | _ => false

/-- Whether an instruction ends the function. -/
def isReturn : Instruction → Bool
  | .ret _ => true
  | _ => false

/-- Where a jump or branch goes. -/
def target? : Instruction → Option Target
  | .jump target => some target
  | .branch _ _ target => some target
  | _ => none

/-- The same instruction, going elsewhere if it goes anywhere. -/
def retarget (target : Target) : Instruction → Instruction
  | .jump _ => .jump target
  | .branch expected condition _ => .branch expected condition target
  | i => i

end Instruction

end Stackless.Flat
