import Stackless.CommandLine.Arguments
import Stackless.Compilation
import Stackless.Diagnostic.Report
import Stackless.Model.Decode

/-!
# The command line

The compiler reads a program model from a file and writes assembly to another
file, or to standard output.  On request it also shows the symbols, the flat
functions and the call trees.

What a run does is decided without doing it.  `Invocation.parse` reads the
arguments; `plan` takes the text of the model and says what to print, with which
status to end, and which file to write.  A **plan** can be carried out on real
files, or on a `Directory`, which is only a table of texts.

Statuses: 0 for success, 1 if a file cannot be read, decoded or written, 2 if
the program is at fault or the arguments are, 101 after a trap.
-/

namespace Stackless.CommandLine

/-- What a run prints and the status with which it ends. -/
structure Reply where
  status : Nat
  stdout : String := ""
  stderr : String := ""
  deriving DecidableEq, Inhabited

/-- What a run is going to do. -/
inductive Plan where
  /-- Print and end. -/
  | finish (reply : Reply)
  /-- Write a file, which stays or is removed again, and reply; or reply that the
  file cannot be written. -/
  | write (path text : String) (stays : Bool) (written unwritable : Reply)
  deriving DecidableEq, Inhabited

/-- The reply to something that could not be done. -/
def Reply.refusal (what path : String) : Reply :=
  { status := 1, stderr := "Error: " ++ what ++ ": " ++ path ++ "\n" }

/-- The reply to a failure. -/
def Reply.ofFailure : Failure → Reply
  | .error e => { status := 2, stderr := (Report.ofError e).text }
  | .trap => { status := 101 }

/-- The name and version of the compiler. -/
def versionLine : String := "Miny18 compiler 1.1.0\n"

/-- The line that announces success. -/
def successLine : String := "---- Success ----\n"

/-- The listings that are asked for, in their fixed order. -/
def Listings.text (l : Listings) (model : Model.Program) (c : Compilation) : String :=
  (if l.symbols then c.layout.listing model else "")
    ++ (if l.functions then c.listing else "")
    ++ (if l.trees then c.outline else "")

/-- The reply of a run whose assembly was written with this outcome. -/
def Request.reply (r : Request) (model : Model.Program) (c : Compilation) :
    Except Failure Unit → Reply
  | .ok () => { status := 0, stdout := successLine ++ r.listings.text model c }
  | .error failure => Reply.ofFailure failure

/-- The plan for a program that has been built. -/
def Request.deliver (r : Request) (model : Model.Program) (c : Compilation) : Plan :=
  let emission := c.emit model
  let reply := r.reply model c emission.outcome
  if isStandardOutput r.output then .finish { reply with stdout := emission.text ++ reply.stdout }
  else
    let stays := match emission.outcome with
      | .error (.error _) => false
      | _ => true
    .write r.output emission.text stays reply (.refusal "Failed to emit to" r.output)

/-- The plan for a request, given the text of the model file if it can be read. -/
def Request.plan (r : Request) (source : Option String) : Plan :=
  match source with
  | none => .finish (.refusal "Failed to read model" r.model)
  | some text =>
    match Model.Program.parse? text with
    | none => .finish (.refusal "Failed to decode model" r.model)
    | some model =>
      match build model with
      | .error failure => .finish (.ofFailure failure)
      | .ok c => r.deliver model c

/-- The reply to arguments that make no sense. -/
def usageReply : Reply :=
  { status := 2
    stderr := "error: expected MODEL, and optionally -o FILE, -s, -i, -c, -d or --version\n" }

/-- The reply to the question for the version. -/
def versionReply : Reply :=
  { status := 0, stdout := versionLine }

/-- A directory without subdirectories: texts by file name. -/
abbrev Directory := Table String

/-- Carries out a plan on a directory. -/
def Plan.run (d : Directory) : Plan → Reply × Directory
  | .finish reply => (reply, d)
  | .write path text stays written unwritable =>
    match fileName? path with
    | none => (unwritable, d)
    | some name => (written, if stays then d.insert name text else d.erase name)

/-- Runs the compiler with some arguments in a directory. -/
def run (arguments : List String) (d : Directory) : Reply × Directory :=
  match Invocation.parse arguments with
  | .misuse => (usageReply, d)
  | .version => (versionReply, d)
  | .compile request => (request.plan ((fileName? request.model).bind d.find?)).run d

end Stackless.CommandLine
