import Stackless.Model.Basic
import Stackless.Model.Vectors

/-!
# Programs and their labels

A program names its main module; the function `main` of that module is the
**entry**.  Labels resolve in two ways.  A function label must be qualified,
and the text before its first dot says in which module to look.  A symbol label
is resolved from inside a function: alone it means a symbol of the function or
else a global of the function's own module, qualified it means a global of the
module before the first dot.
-/

namespace Stackless.Model

/-- A whole program. -/
structure Program where
  /-- The name of the main module. -/
  name : String
  config : HardwareConfig := {}
  vectors : Vectors := ∅
  modules : Table Module := ∅
  deriving Inhabited

/-- The module of a qualified label: the text before its first dot. -/
def moduleOf (label : String) : String :=
  String.ofList (label.toList.takeWhile (· ≠ '.'))

/-- A label cut at its first dot, if it has one. -/
def splitLabel? (label : String) : Option (String × String) :=
  match label.toList.dropWhile (· ≠ '.') with
  | [] => none
  | _ :: name => some (moduleOf label, String.ofList name)

/-- A name qualified by its module. -/
def qualify (module name : String) : String :=
  module ++ "." ++ name

/-- The module to which a function belongs by its label. -/
def Function.module (f : Function) : String :=
  moduleOf f.label

/-- A symbol as it is seen from a function. -/
inductive Reference where
  /-- A symbol of the function itself. -/
  | localSymbol (name : String)
  /-- A global of a module. -/
  | globalSymbol (module name : String)
  deriving DecidableEq

namespace Program

/-- The label of the entry. -/
def entry (p : Program) : String :=
  qualify p.name "main"

/-- The function under a qualified label. -/
def function (p : Program) (label : String) : Except CompileError Function :=
  match p.modules.find? (moduleOf label) with
  | none => .error (.unknownModule (moduleOf label))
  | some m =>
    match m.functions.find? label with
    | none => .error (.undefinedFunction label)
    | some f => .ok f

/-- The global of a module, if both exist. -/
def global? (p : Program) (module name : String) : Option Symbol := do
  let m ← p.modules.find? module
  m.symbols.find? name

/-- The symbol that a label means inside a function. -/
def symbol (p : Program) (f : Function) (label : String) :
    Except CompileError (Reference × Symbol) :=
  match splitLabel? label with
  | none =>
    match f.symbols.find? label with
    | some s => .ok (.localSymbol label, s)
    | none =>
      match p.global? f.module label with
      | some s => .ok (.globalSymbol f.module label, s)
      | none => .error (.undefinedSymbol label)
  | some (module, name) =>
    match p.modules.find? module with
    | none => .error (.unknownModule module)
    | some m =>
      match m.symbols.find? name with
      | some s => .ok (.globalSymbol module name, s)
      | none => .error (.undefinedSymbol label)

end Program

end Stackless.Model
