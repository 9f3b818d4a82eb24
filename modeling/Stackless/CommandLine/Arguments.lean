import Stackless.CommandLine.Path

/-!
# The arguments of a run

Arguments are read one by one from the left.  Some of them decide at once what the
run is: a question for the version, an option that does not exist, a second model.
An option that stands twice or lacks its value is only a **flaw**: it makes the
arguments invalid at the end, but a question for the version that comes later is
still answered.
-/

namespace Stackless.CommandLine

/-- Which listings are asked for. -/
structure Listings where
  symbols : Bool := false
  functions : Bool := false
  trees : Bool := false
  deriving DecidableEq, Inhabited

/-- A compilation that is asked for. -/
structure Request where
  /-- The file of the program model. -/
  model : String
  /-- The file for the assembly; a dash is standard output. -/
  output : String
  listings : Listings := {}
  deriving DecidableEq, Inhabited

/-- What the arguments mean. -/
inductive Invocation where
  | compile (request : Request)
  | version
  | misuse
  deriving DecidableEq, Inhabited

/-- Arguments read so far. -/
structure Arguments where
  model : Option String := none
  output : Option String := none
  listings : Listings := {}
  debug : Bool := false
  /-- Whether the option for the output stands last and waits for its value. -/
  awaiting : Bool := false
  /-- Whether an option stands twice or lacks its value. -/
  flawed : Bool := false
  /-- Whether the options have ended, so that what follows stands for itself. -/
  ended : Bool := false
  deriving DecidableEq, Inhabited

/-- Whether a text stands for itself and not for options. -/
def isPlain (text : String) : Bool :=
  text = "-" || text.toList.head? ≠ some '-'

/-- Notes a flaw if there is one. -/
def Arguments.flawedIf (a : Arguments) (flaw : Bool) : Arguments :=
  { a with flawed := a.flawed || flaw }

/-- Takes a value as the output file.  A second one is a flaw. -/
def Arguments.takeOutput (a : Arguments) (value : String) : Arguments :=
  { a.flawedIf a.output.isSome with output := some value, awaiting := false }

/-- Takes a text as the model file.  A second one is misuse. -/
def Arguments.takeModel (a : Arguments) (value : String) : Except Invocation Arguments :=
  if a.model.isSome then .error .misuse else .ok { a with model := some value }

/-- Waits no longer for a value.  An option that lacks it is a flaw. -/
def Arguments.settle (a : Arguments) : Arguments :=
  { a.flawedIf a.awaiting with awaiting := false }

/-- Reads a cluster of one-letter options.  The letter for the output takes the rest
of the cluster as its value, after an equals sign or not, or else waits for the next
argument. -/
def Arguments.cluster (a : Arguments) : List Char → Except Invocation Arguments
  | [] => .ok a
  | 's' :: cs => cluster { a.flawedIf a.listings.symbols with listings.symbols := true } cs
  | 'i' :: cs => cluster { a.flawedIf a.listings.functions with listings.functions := true } cs
  | 'c' :: cs => cluster { a.flawedIf a.listings.trees with listings.trees := true } cs
  | 'd' :: cs => cluster { a.flawedIf a.debug with debug := true } cs
  | 'V' :: _ => .error .version
  | ['o'] => .ok { a with awaiting := true }
  | 'o' :: '=' :: value => .ok (a.takeOutput (String.ofList value))
  | 'o' :: value => .ok (a.takeOutput (String.ofList value))
  | _ :: _ => .error .misuse

/-- Reads an argument that is an option.  Two dashes end the options. -/
def Arguments.option (a : Arguments) (argument : String) : Except Invocation Arguments :=
  if argument = "--" then .ok { a with ended := true }
  else if argument = "--version" then .error .version
  else a.cluster (argument.toList.drop 1)

/-- Reads one argument, or says what the run is. -/
def Arguments.step (a : Arguments) (argument : String) : Except Invocation Arguments :=
  if a.ended then a.takeModel argument
  else if !isPlain argument then a.settle.option argument
  else if a.awaiting then .ok (a.takeOutput argument)
  else a.takeModel argument

/-- What arguments mean that have all been read. -/
def Arguments.finish (a : Arguments) : Invocation :=
  match a.model with
  | none => .misuse
  | some model =>
    if a.settle.flawed then .misuse
    else .compile { model, output := a.output.getD (defaultOutput model), listings := a.listings }

/-- What a list of arguments means. -/
def Invocation.parse (arguments : List String) : Invocation :=
  match arguments.foldlM Arguments.step {} with
  | .error invocation => invocation
  | .ok a => a.finish

end Stackless.CommandLine
