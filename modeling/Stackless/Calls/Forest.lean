import Stackless.Calls.Tree
import Stackless.Model.Program

/-!
# The call forest of a program

A program is entered in two ways: at its entry, once, and at every interrupt
handler, at any moment.  The forest holds one call tree for the entry, the
**main line**, and one for each handler in the vector table, in level order.
-/

namespace Stackless.Calls

open Flat (Program)

/-- The names of a list, each once, in the order of their first occurrences. -/
def distinct (names : List String) : List String :=
  names.foldl (fun known name => if name ∈ known then known else known ++ [name]) []

/-- The call trees of all entry points. -/
structure Forest where
  main : CallTree
  /-- The handlers with their levels, in level order. -/
  interrupts : List (Nat × CallTree)
  deriving Inhabited

namespace Forest

/-- The tree of an installed handler. -/
def handlerTree (p : Program) (label : String) : Except (Located CompileError) CallTree :=
  match p.find? label with
  | none => .error (.nowhere (.undefinedFunction label))
  | some f =>
    if f.isr then CallTree.build p label else .error (.nowhere (.notInterrupt label))

/-- The forest of a program. -/
def build (model : Model.Program) (p : Program) : Except (Located CompileError) Forest :=
  if !model.modules.contains model.name then .error (.nowhere (.unknownModule model.name))
  else if !p.contains model.entry then .error (.nowhere (.missingMain model.entry))
  else do
    let main ← CallTree.build p model.entry
    let interrupts ← model.vectors.handlers.mapM fun handler => do
      let tree ← handlerTree p handler.2
      return (handler.1, tree)
    return { main, interrupts }

/-- All trees, the main line first. -/
def trees (f : Forest) : List CallTree :=
  f.main :: f.interrupts.map (·.2)

/-- The names in some tree, with repetitions between trees, in the order of
discovery. -/
def discovery (f : Forest) : List String :=
  f.trees.flatMap CallTree.discovery

/-- The functions that some entry point reaches, each once, the main line first. -/
def reachable (f : Forest) : List String :=
  distinct f.discovery

/-- All trees as text. -/
def outline (p : Program) (f : Forest) : String :=
  String.join (f.trees.map (CallTree.outline p))

end Forest

end Stackless.Calls
