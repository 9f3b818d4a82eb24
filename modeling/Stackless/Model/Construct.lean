import Stackless.Model.Program

/-!
# Building models by hand

Short ways to write symbols, statements, functions and modules, for whoever
builds a program model without a front end.  Statements built this way have no
position.  A name that is given twice keeps its last meaning.
-/

namespace Stackless.Model

namespace Symbol

/-- A scalar of a type in a kind of storage. -/
def scalar (type : ValueType) (storage : Storage) : Symbol :=
  { type, storage }

/-- A word variable. -/
def word : Symbol := scalar .int .register

/-- A truth variable. -/
def flag : Symbol := scalar .bool .bit

/-- A truth variable at a fixed bit of the hardware. -/
def flagAt (address : UInt32) : Symbol := { flag with offset := some address }

/-- An array of words in the RAM. -/
def ramArray (count : UInt32) : Symbol := { scalar .ram .ram with count }

/-- A constant, or a table of constants. -/
def constant (type : ValueType) (values : List Int32) : Symbol :=
  { scalar type .rom with count := UInt32.ofNat values.length, values }

/-- An input/output port. -/
def portAt (address : UInt32) : Symbol := { scalar .int .port with offset := some address }

end Symbol

namespace Function

/-- Adds a local symbol. -/
def addSymbol (f : Function) (name : String) (symbol : Symbol) : Function :=
  { f with symbols := f.symbols.insert name symbol }

/-- Adds a parameter and the local symbol that holds it. -/
def addParameter (f : Function) (name : String) (type : ValueType) : Function :=
  let storage := match type with
    | .bool => Storage.bit
    | _ => Storage.register
  { f.addSymbol name (.scalar type storage) with parameters := f.parameters ++ [⟨name, type⟩] }

/-- Replaces the body. -/
def withBody (f : Function) (body : List Stmt) : Function :=
  { f with body := body.map .nowhere }

end Function

namespace Stmt

/-- A block. -/
def sequence (body : List Stmt) : Stmt :=
  .block (body.map .nowhere)

/-- A loop around a block. -/
def forever (body : List Stmt) : Stmt :=
  .loop (.nowhere (sequence body))

/-- A conditional statement. -/
def ifElse (condition : Expr) (consequent : Stmt) (alternative : Option Stmt) : Stmt :=
  .branch condition (.nowhere consequent) (alternative.map .nowhere)

end Stmt

/-- Adds a global. -/
def Module.addSymbol (m : Module) (name : String) (symbol : Symbol) : Module :=
  { m with symbols := m.symbols.insert name symbol }

/-- Adds a function under its own label. -/
def Module.addFunction (m : Module) (f : Function) : Module :=
  { m with functions := m.functions.insert f.label f }

/-- Adds a module. -/
def Program.addModule (p : Program) (name : String) (m : Module) : Program :=
  { p with modules := p.modules.insert name m }

end Stackless.Model
