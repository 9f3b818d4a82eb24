/-!
# Paths on the command line

A path is cut at its slashes into **steps**.  An empty step and a single dot stay
in place.  Three questions are asked of a path:

* `isStandardOutput`: is it the dash that means standard output?
* `fileName?`: which file of the working directory is it?
* `defaultOutput`: where does the assembly of this model go?

There are no subdirectories, so a path means a file only if all its steps before
the last one stay in place.
-/

namespace Stackless.CommandLine

/-- The steps of a path: what stands between its slashes.  There is always one. -/
def steps : List Char → List (List Char)
  | [] => [[]]
  | c :: cs =>
    if c = '/' then [] :: steps cs
    else match steps cs with
      | [] => [[c]]
      | step :: rest => (c :: step) :: rest

/-- A step that leads nowhere else. -/
def inPlace (step : List Char) : Bool :=
  step = [] || step = ['.']

/-- Whether a path means standard output: a dash, which only steps in place may
follow. -/
def isStandardOutput (path : String) : Bool :=
  match steps path.toList with
  | [] => false
  | first :: rest => first = ['-'] && rest.all inPlace

/-- The most bytes that the name of a file has. -/
def nameLimit : Nat := 255

/-- The most bytes that a path has. -/
def pathLimit : Nat := 4095

/-- The file of the working directory that a path means, if it means one: its last
step, where the steps before it stay in place and do not start from the root. -/
def fileName? (path : String) : Option String :=
  match (steps path.toList).reverse with
  | [] => none
  | step :: before =>
    let name := String.ofList step
    let named := !inPlace step && step ≠ ['.', '.']
    let here := before.all inPlace && path.toList.head? ≠ some '/'
    let fits := name.utf8ByteSize ≤ nameLimit && path.utf8ByteSize ≤ pathLimit
    if named && here && fits then some name else none

/-- A path cut after its last slash. -/
def splitPath (path : List Char) : List Char × List Char :=
  let name := (path.reverse.takeWhile (· ≠ '/')).reverse
  (path.take (path.length - name.length), name)

/-- A file name without its extension.  A dot at the very front starts no
extension. -/
def stem (name : List Char) : List Char :=
  match name.reverse.dropWhile (· ≠ '.') with
  | [] => name
  | _ :: before => if before.isEmpty then name else before.reverse

/-- The output file that goes with a model file: the same name, with the extension
for assembly.  The extension is taken off up to its dot, and where this leaves two
dots, the path to the directory above, none is put on. -/
def defaultOutput (model : String) : String :=
  let (directory, name) := splitPath model.toList
  if inPlace name || name = ['.', '.'] then model
  else if stem name = ['.'] then String.ofList (directory ++ ['.', '.'])
  else String.ofList (directory ++ stem name ++ ".asm".toList)

end Stackless.CommandLine
