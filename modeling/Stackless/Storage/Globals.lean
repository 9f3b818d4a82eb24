import Stackless.Calls.Forest
import Stackless.Storage.Layout

/-!
# Placing the globals

Constants and variables get their addresses first, each kind of storage from a
cursor of its own.

* Arrays of constants fill the constants ROM from 0, in name order.  A constant
  that is no array takes no storage; it is written into the code.
* Variables go module by module: first the modules of the functions that can be
  reached, in the order of discovery, then the others in name order.  Arrays
  fill the RAM from 0.  The registers 0 and 1 and the bit 0 are scratch, so
  variables start at register 2 and bit 1.
* Ports, and bits with a fixed address, are where the model says.

The RAM and the constants ROM hold as many words as the widths of their address
buses allow.  A cursor that leaves the range of a word is a trap.
-/

namespace Stackless.Storage

open Calls (Forest)
open Model (Symbol)

/-- The registers that are kept for scratch. -/
def scratchRegisters : Nat := 2

/-- The bits that are kept for scratch. -/
def scratchBits : Nat := 1

/-- The number of words that an address bus reaches, at most the largest word. -/
def capacity (bits : UInt32) : Nat :=
  if bits.toNat < 32 then Nat.pow 2 bits.toNat else wordLimit - 1

/-- Whether a symbol is an array of constants. -/
def isConstantArray (symbol : Symbol) : Bool :=
  symbol.storage = .rom && symbol.isArray

/-- Constants placed so far: their addresses, and the words they take. -/
structure Constants where
  addresses : Table Nat := ∅
  used : Nat := 0

/-- Places an array of constants after those before it. -/
def Constants.place (c : Constants) (label : String) (symbol : Symbol) :
    Except Failure Constants := do
  let used ← checkWord (c.used + symbol.count.toNat)
  return { addresses := c.addresses.insert label c.used, used }

/-- Places all arrays of constants. -/
def placeConstants (model : Model.Program) : Except Failure Constants := do
  let arrays := (globals model).filter fun g => isConstantArray g.2
  let constants ← arrays.foldlM (fun c g => c.place g.1 g.2) {}
  let capacity := capacity model.config.constBits
  if constants.used ≤ capacity then return constants
  else throw (.error (.nowhere (.constantsOverflow constants.used capacity)))

/-- Globals placed so far: all addresses, and the next free place of each kind. -/
structure Cursors where
  addresses : Table Nat
  ram : Nat := 0
  registers : Nat := scratchRegisters
  bits : Nat := scratchBits

/-- Places a global. -/
def Cursors.place (c : Cursors) (label : String) (symbol : Symbol) : Except Failure Cursors :=
  if symbol.type = .bool ∧ symbol.isArray then .error (.error (.nowhere (.boolArray label)))
  else
    match symbol.storage, symbol.offset with
    | .rom, _ => .ok c
    | .bit, some fixed | .port, some fixed =>
      .ok { c with addresses := c.addresses.insert label fixed.toNat }
    | .port, none => .error (.error (.nowhere (.unsupportedStorage label)))
    | .ram, _ => do
      let ram ← checkWord (c.ram + symbol.count.toNat)
      return { c with addresses := c.addresses.insert label c.ram, ram }
    | .register, _ => do
      let registers ← checkWord (c.registers + symbol.count.toNat)
      return { c with addresses := c.addresses.insert label c.registers, registers }
    | .bit, none => do
      let bits ← checkWord (c.bits + 1)
      return { c with addresses := c.addresses.insert label c.bits, bits }

/-- The modules in the order in which their variables are placed. -/
def moduleOrder (model : Model.Program) (forest : Forest) : List String :=
  Calls.distinct (forest.discovery.map Model.moduleOf ++ model.modules.keys)

/-- The globals of a module by their qualified labels, in name order. -/
def moduleGlobals (model : Model.Program) (module : String) : List (String × Symbol) :=
  match model.modules.find? module with
  | none => []
  | some m => m.symbols.entries.map fun s => (Model.qualify module s.1, s.2)

/-- Places all variables beside constants that have been placed. -/
def placeVariables (model : Model.Program) (forest : Forest) (constants : Table Nat) :
    Except Failure Cursors := do
  let placed := (moduleOrder model forest).flatMap (moduleGlobals model)
  let cursors ← placed.foldlM (fun c g => c.place g.1 g.2) { addresses := constants }
  let capacity := capacity model.config.ramBits
  if cursors.ram ≤ capacity then return cursors
  else throw (.error (.nowhere (.ramOverflow cursors.ram capacity)))

end Stackless.Storage
