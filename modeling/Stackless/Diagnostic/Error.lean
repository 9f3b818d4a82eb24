import Stackless.Position

/-!
# What can go wrong

Two kinds of failure are kept apart.  A **compile error** says what is wrong
with the program model, or which instruction broke an internal rule; it may
carry a position.  A **trap** is the end of a computation on addresses that
left the range of a 32-bit word, or on an instruction list that refers past
its end.

Every cause is a constructor; `CompileError.message` and `Fault.message` hold
all the wording.
-/

namespace Stackless

/-- How an instruction list can be inconsistent with itself or with the
storage that was given to it. -/
inductive Fault where
  /-- A jump names a marker that stands nowhere. -/
  | undefinedMarker (marker : String)
  /-- The value of a call is used but the function has none. -/
  | noValue (function : String)
  /-- A jump whose marker has not been looked up. -/
  | unresolvedJump (marker : String)
  /-- The target of an assignment is no place. -/
  | invalidTarget
  /-- A local without a slot. -/
  | noLocal (name : String)
  /-- A local where only a global can stand. -/
  | notGlobal (name : String)
  /-- A global without an address. -/
  | noGlobal (label : String)
  /-- The window of an interrupt handler reaches into the main line's storage. -/
  | windowOverlap
  /-- A source operand without an address. -/
  | bareOperand
  /-- An instruction without an address where one is needed. -/
  | bareInstruction
  /-- A port without an address. -/
  | barePort
  /-- A called function without the slot for a parameter or its result. -/
  | noSlot (name function : String)
  /-- A truth operation on words. -/
  | logicalOnWords
  /-- An arithmetic operation on bits. -/
  | arithmeticOnBits
  /-- A reason given in words. -/
  | stated (reason : String)
  deriving DecidableEq

/-- The wording of a fault. -/
def Fault.message : Fault → String
  | .undefinedMarker marker => "jump to undefined marker `" ++ marker ++ "`"
  | .noValue function => "`" ++ function ++ "` returns no value"
  | .unresolvedJump marker => "unresolved jump to `" ++ marker ++ "`"
  | .invalidTarget => "invalid assignment target"
  | .noLocal name => "no storage for local `" ++ name ++ "`"
  | .notGlobal name => "`" ++ name ++ "` is not a global"
  | .noGlobal label => "no address for `" ++ label ++ "`"
  | .windowOverlap => "interrupt window overlaps the main line"
  | .bareOperand => "operand has no address"
  | .bareInstruction => "instruction has no address"
  | .barePort => "port has no address"
  | .noSlot name function => "no slot for `" ++ name ++ "` in `" ++ function ++ "`"
  | .logicalOnWords => "logical operation on words"
  | .arithmeticOnBits => "arithmetic on bits"
  | .stated reason => reason

/-- What is wrong with a program model. -/
inductive CompileError where
  /-- A call of a function that is already active on the same call chain. -/
  | recursion (function : String)
  /-- A global array of truth values. -/
  | boolArray (label : String)
  /-- A symbol in a kind of storage that it cannot have. -/
  | unsupportedStorage (symbol : String)
  /-- More words of constants than the constants ROM holds. -/
  | constantsOverflow (used capacity : Nat)
  /-- More words of arrays than the RAM holds. -/
  | ramOverflow (used capacity : Nat)
  /-- No function under the entry label. -/
  | missingMain (entry : String)
  /-- No module of this name. -/
  | unknownModule (name : String)
  /-- No function under this label. -/
  | undefinedFunction (label : String)
  /-- No symbol under this label. -/
  | undefinedSymbol (label : String)
  /-- An interrupt handler that makes a call. -/
  | callFromInterrupt (function : String)
  /-- A call of an interrupt handler. -/
  | callToInterrupt (function : String)
  /-- A vector that names a function which is no interrupt handler. -/
  | notInterrupt (function : String)
  /-- A call with the wrong number of arguments. -/
  | argumentCount (function : String) (expected found : Nat)
  /-- A `break` or `continue` that no loop encloses. -/
  | loopControl
  /-- An assignment to something that is no place. -/
  | notAssignable (target : String)
  /-- A second handler for one level. -/
  | duplicateVector (level : Nat)
  /-- A handler for the level of the program entry. -/
  | reservedVector
  /-- A level that the processor does not have. -/
  | vectorOutOfRange (level : Nat)
  /-- An instruction that breaks an internal rule. -/
  | internal (function : String) (index : Nat) (fault : Fault)
  deriving DecidableEq

namespace CompileError

/-- The wording of an error, without its position. -/
def message : CompileError → String
  | .recursion function => "Recursive function call: " ++ function
  | .boolArray label => "Bool arrays are not supported: `" ++ label ++ "`"
  | .unsupportedStorage symbol => "Unsupported storage for function symbol `" ++ symbol ++ "`"
  | .constantsOverflow used capacity =>
    "Constants ROM too small: " ++ toString used ++ " words needed, " ++ toString capacity
      ++ " available"
  | .ramOverflow used capacity =>
    "RAM too small: " ++ toString used ++ " words needed, " ++ toString capacity ++ " available"
  | .missingMain entry => "Missing main function `" ++ entry ++ "`"
  | .unknownModule name => "Invalid module name: " ++ name
  | .undefinedFunction label => "Undefined function: " ++ label
  | .undefinedSymbol label => "Label not found: " ++ label
  | .callFromInterrupt function => "ISR can't make calls: " ++ function
  | .callToInterrupt function => "Call to ISR: " ++ function
  | .notInterrupt function => "Interrupt vector points to a non-ISR function: " ++ function
  | .argumentCount function expected found =>
    "Parameter count error: `" ++ function ++ "` expects " ++ toString expected ++ ", found "
      ++ toString found
  | .loopControl => "`break` or `continue` outside of a loop"
  | .notAssignable target => "Expression can't be assigned to: `" ++ target ++ "`"
  | .duplicateVector level => "Duplicate ISR level: " ++ toString level
  | .reservedVector => "ISR level 0 is reserved for the program entry"
  | .vectorOutOfRange level => "ISR level out of range: " ++ toString level
  | .internal function index fault =>
    "Invalid instruction " ++ toString index ++ " in `" ++ function ++ "`: " ++ fault.message

/-- Whether the error is about the compiler's own instructions and not about
the model. -/
def isInternal : CompileError → Bool
  | .internal _ _ _ => true
  | _ => false

end CompileError

/-- An error with its position in front, if it has one. -/
def Located.message (e : Located CompileError) : String :=
  match e.position with
  | some p => p.text ++ ": " ++ e.value.message
  | none => e.value.message

/-- Why a phase gave no result. -/
inductive Failure where
  | error (e : Located CompileError)
  /-- A 32-bit address computation or an index left its range. -/
  | trap
  deriving DecidableEq

/-- A phase that only reports errors, as one that may also trap. -/
def orFail {α : Type} (x : Except (Located CompileError) α) : Except Failure α :=
  x.mapError Failure.error

/-- One more than the largest 32-bit word. -/
def wordLimit : Nat := 4294967296

/-- The result of an address computation, if it is a 32-bit word. -/
def checkWord (n : Nat) : Except Failure Nat :=
  if n < wordLimit then .ok n else .error .trap

/-- The difference of two words, if it is one. -/
def checkedSub (a b : Nat) : Except Failure Nat :=
  if b ≤ a then .ok (a - b) else .error .trap

/-- The value that a list or table must hold at some place. -/
def orTrap {α : Type} : Option α → Except Failure α
  | some a => .ok a
  | none => .error .trap

end Stackless
