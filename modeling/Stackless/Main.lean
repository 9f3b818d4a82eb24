import Stackless.CommandLine

/-!
# The program

Carries out on real files what `CommandLine` decides.
-/

namespace Stackless.CommandLine

/-- The text of a file, if it can be read. -/
def readText (path : String) : IO (Option String) := do
  try
    let text ← IO.FS.readFile path
    return some text
  catch _ => return none

/-- Writes a file and says whether that worked. -/
def writeText (path text : String) : IO Bool := do
  try
    IO.FS.writeFile path text
    return true
  catch _ => return false

/-- Removes a file, if that can be done. -/
def removeText (path : String) : IO Unit := do
  try IO.FS.removeFile path
  catch _ => return ()

/-- Prints a reply and gives its status. -/
def answer (reply : Reply) : IO UInt32 := do
  IO.print reply.stdout
  IO.eprint reply.stderr
  return UInt32.ofNat reply.status

/-- Carries out a plan. -/
def carryOut : Plan → IO UInt32
  | .finish reply => answer reply
  | .write path text stays written unwritable => do
    let worked ← writeText path text
    if !(worked && stays) then removeText path
    answer (if worked then written else unwritable)

/-- Runs the compiler on real files. -/
def perform (arguments : List String) : IO UInt32 :=
  match Invocation.parse arguments with
  | .misuse => answer usageReply
  | .version => answer versionReply
  | .compile request => do
    let source ← readText request.model
    carryOut (request.plan source)

end Stackless.CommandLine

/-- The command line of the compiler. -/
def main (arguments : List String) : IO UInt32 :=
  Stackless.CommandLine.perform arguments
