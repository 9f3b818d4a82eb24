import Stackless.Model.Program
import Stackless.Text.Column

/-!
# Storage layouts

A layout says where everything with a name of its own is: the address of every
global that has one, the functions in the order in which they got their
storage, and how much of each kind of storage the program takes.
-/

namespace Stackless.Storage

/-- Where a program's globals are, and how much storage it takes. -/
structure Layout where
  /-- The address of each global, each kind of storage counted by itself. -/
  addresses : Table Nat := ∅
  /-- The functions that can be reached, in the order of allocation. -/
  order : List String := []
  registers : Nat := 0
  bits : Nat := 0
  ram : Nat := 0
  constants : Nat := 0
  deriving Inhabited

/-- The globals of a program by their qualified labels, in name order of modules
and symbols. -/
def globals (model : Model.Program) : List (String × Model.Symbol) :=
  model.modules.entries.flatMap fun m =>
    m.2.symbols.entries.map fun s => (Model.qualify m.1 s.1, s.2)

/-- The line of a global: label, kind of storage, and address if it has one. -/
def Layout.globalLine (layout : Layout) (label : String) (symbol : Model.Symbol) : String :=
  let address := match layout.addresses.find? label with
    | some address => toString address
    | none => "-"
  Text.alignLeft 24 label ++ " " ++ Text.alignLeft 5 symbol.storage.short ++ " " ++ address ++ "\n"

/-- All globals, and the totals. -/
def Layout.listing (layout : Layout) (model : Model.Program) : String :=
  let lines := (globals model).map fun g => layout.globalLine g.1 g.2
  String.join lines ++ "; registers " ++ toString layout.registers ++ ", bits "
    ++ toString layout.bits ++ ", ram " ++ toString layout.ram ++ ", constants "
    ++ toString layout.constants ++ "\n"

end Stackless.Storage
