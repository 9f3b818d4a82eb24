import Stackless.Assembly.Line
import Stackless.Diagnostic.Error

/-!
# Emissions

An emission writes lines and then ends well or fails.  What was written before
a failure stays written: it can be shown, and it tells how far the emission
came.  So an emission is the list of its lines *and* its outcome, and following
one emission by another adds the lines of the second only if the first ended
well.
-/

namespace Stackless.Assembly

/-- Lines that were written, and how the writing ended. -/
structure Emission (α : Type) where
  lines : List Line
  outcome : Except Failure α

namespace Emission

variable {α β : Type}

/-- Follows an emission by one that needs its result. -/
def andThen (e : Emission α) (next : α → Emission β) : Emission β :=
  match e.outcome with
  | .error failure => ⟨e.lines, .error failure⟩
  | .ok a =>
    let rest := next a
    ⟨e.lines ++ rest.lines, rest.outcome⟩

instance : Monad Emission where
  pure a := ⟨[], .ok a⟩
  bind := andThen

/-- Writes a line. -/
def line (l : Line) : Emission Unit :=
  ⟨[l], .ok ()⟩

/-- Writes lines. -/
def ofLines (ls : List Line) : Emission Unit :=
  ⟨ls, .ok ()⟩

/-- Writes a command. -/
def command (c : Command) : Emission Unit :=
  line (.command c)

/-- A computation that writes nothing. -/
def silent (x : Except Failure α) : Emission α :=
  ⟨[], x⟩

/-- What was written. -/
def text (e : Emission α) : String :=
  render e.lines

end Emission

end Stackless.Assembly
