import Stackless.Assembly.Emission

/-!
# Writing to a device

An emission goes to a device that may be full before everything is written.
The device is full in the middle of a text, counted in bytes; what it took is
still there.  A device that is full hides a failure that would have come later.
-/

namespace Stackless.Assembly

/-- The mark that stands for a character of which only some bytes are there. -/
def brokenCharacter : Char := Char.ofNat 0xFFFD

/-- The first bytes of a text.  A character that is cut shows as a broken one. -/
def firstBytes : (limit : Nat) → List Char → List Char
  | _, [] => []
  | limit, c :: rest =>
    if c.utf8Size ≤ limit then c :: firstBytes (limit - c.utf8Size) rest
    else if limit = 0 then []
    else [brokenCharacter]

/-- How writing to a device ended. -/
inductive Delivery where
  | complete (text : String)
  /-- The device was full; it took this much. -/
  | full (taken : String)
  /-- The emission failed after this much. -/
  | failed (written : String) (failure : Failure)

/-- What is said when a device is full. -/
def fullMessage : String := "I/O error"

/-- What a device that takes a number of bytes has of a text that does not fit. -/
def overflow? (limit : Option Nat) (text : String) : Option String :=
  match limit with
  | none => none
  | some limit =>
    if text.utf8ByteSize ≤ limit then none
    else some (String.ofList (firstBytes limit text.toList))

/-- Writes an emission to a device that takes a number of bytes, or any number. -/
def Emission.deliver (e : Emission Unit) (limit : Option Nat) : Delivery :=
  match overflow? limit e.text, e.outcome with
  | some taken, _ => .full taken
  | none, .ok () => .complete e.text
  | none, .error failure => .failed e.text failure

end Stackless.Assembly
