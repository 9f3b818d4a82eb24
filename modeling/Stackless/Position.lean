/-!
# Source positions

A statement of a program model may say from which line of which source file
it comes.  Positions travel with everything made from the statement, so that
a failure can point at the line that caused it.
-/

namespace Stackless

/-- A line of a source file. -/
structure Position where
  file : String
  line : UInt32
  deriving DecidableEq, Inhabited

/-- A position as it is shown: file, colon, line. -/
def Position.text (p : Position) : String :=
  p.file ++ ":" ++ toString p.line.toNat

/-- A value with the position it comes from, if that is known. -/
structure Located (α : Type) where
  position : Option Position
  value : α
  deriving DecidableEq, Inhabited

/-- A value of unknown position. -/
def Located.nowhere {α : Type} (value : α) : Located α :=
  ⟨none, value⟩

end Stackless
