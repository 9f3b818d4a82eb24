import Stackless.Diagnostic.Error
import Stackless.Flat.Instruction

/-!
# Flat functions

A flat function is a list of instructions together with what later phases find
out about them:

* the **last use** of each instruction, the index of the last instruction that
  names it (`Function.liveness`);
* the **offset** of each instruction and of each local, first relative to the
  function's own window and in the end an absolute address;
* the function's two **windows**, one in the register file and one in the bit
  file.

A window is a base and a count.  Its upper end is an address computation and
may leave the range of a word.
-/

namespace Stackless.Flat

open Model (ValueType)

/-- The two files that hold temporaries and locals. -/
inductive File where
  | register
  | bit
  deriving DecidableEq, Inhabited

/-- The file that holds values of a width. -/
def Width.file : Width → File
  | .word => .register
  | .bit => .bit

/-- How far an address is known. -/
inductive Offset where
  | unresolved
  /-- A slot of the function's own window. -/
  | relative (file : File) (slot : Nat)
  | absolute (address : Nat)
  deriving DecidableEq, Inhabited

/-- The address, once it is absolute. -/
def Offset.absolute? : Offset → Option Nat
  | .absolute address => some address
  | _ => none

/-- An offset as listings show it. -/
def Offset.text : Offset → String
  | .unresolved => "-"
  | .relative .register slot => "r" ++ toString slot
  | .relative .bit slot => "b" ++ toString slot
  | .absolute address => toString address

/-- An instruction with what is known about it. -/
structure Op where
  instruction : Instruction
  offset : Offset := .unresolved
  lastUse : Option Nat := none
  position : Option Position := none
  deriving DecidableEq, Inhabited

/-- A new instruction of some position. -/
def Op.fresh (position : Option Position) (instruction : Instruction) : Op :=
  { instruction, position }

/-- The same op, taken out. -/
def Op.remove (op : Op) : Op :=
  { op with instruction := .removed }

/-- The slots of a function in one of the files. -/
structure Window where
  base : Nat := 0
  count : Nat := 0
  deriving DecidableEq, Inhabited

/-- The first address above a window. -/
def Window.upper (w : Window) : Except Failure Nat :=
  checkWord (w.base + w.count)

/-- Whether two windows share an address.  An upper end is only computed when
the comparison needs it. -/
def Window.overlaps (w v : Window) : Except Failure Bool :=
  if w.count = 0 ∨ v.count = 0 then .ok false
  else do
    let top ← v.upper
    if w.base < top then
      let top ← w.upper
      return v.base < top
    else return false

/-- A flat function. -/
structure Function where
  label : String
  isr : Bool := false
  returns : Option ValueType := none
  body : List Op := []
  registers : Window := {}
  bits : Window := {}
  /-- The slots of parameters and locals, and of the result under `return`. -/
  locals : Table Offset := ∅
  deriving Inhabited

/-- Flat functions by their labels. -/
abbrev Program := Table Function

/-- The first index from `start` on whose instruction was not taken out. -/
def nextLive (body : List Op) (start : Nat) : Option Nat :=
  ((body.drop start).findIdx? fun op => !op.instruction.isRemoved).map (start + ·)

/-- The index of the last op that names `r`, where the first op of the list has
index `start`. -/
def lastUser (r : Nat) : (start : Nat) → List Op → Option Nat
  | _, [] => none
  | start, op :: rest =>
    match lastUser r (start + 1) rest with
    | some user => some user
    | none => if r ∈ op.instruction.operands then some start else none

/-- When the op at index `i` of a body is used last.  Named storage that is used
at all counts as used up to the end of the body. -/
def lastUseIn (body : List Op) (i : Nat) (op : Op) : Option Nat :=
  match lastUser i 0 body with
  | none => none
  | some user => some (if op.instruction.isStorage then body.length else user)

/-- Every op with its last use. -/
def withLastUses (body : List Op) : List Op :=
  body.mapIdx fun i op => { op with lastUse := lastUseIn body i op }

/-- Whether every operand is an index of the body. -/
def Closed (body : List Op) : Prop :=
  ∀ op ∈ body, ∀ r ∈ op.instruction.operands, r < body.length

instance (body : List Op) : Decidable (Closed body) :=
  inferInstanceAs (Decidable (∀ op ∈ body, ∀ r ∈ op.instruction.operands, r < body.length))

namespace Function

/-- Finds the last use of every instruction.  A body that names an instruction
past its end is a trap. -/
def liveness (f : Function) : Except Failure Function :=
  if Closed f.body then .ok { f with body := withLastUses f.body } else .error .trap

/-- The functions that are called, in order, with the positions of the calls. -/
def calls (f : Function) : List (String × Option Position) :=
  f.body.filterMap fun op =>
    match op.instruction with
    | .call function _ => some (function, op.position)
    | _ => none

end Function

end Stackless.Flat
