import Stackless.Storage.Frame
import Stackless.Storage.Globals
import Stackless.Storage.Windows

/-!
# Allocation

Every address of a program is fixed before it runs.  Allocation goes through
the whole program four times: globals, then the slots of each function that can
be reached, then the windows, then addresses in place of slots.
-/

namespace Stackless.Storage

open Flat (Program)
open Calls (Forest)

/-- Gives slots to the functions with the given labels. -/
def frames (model : Model.Program) (globals : Table Nat) (p : Program) :
    List String → Except Failure Program
  | [] => .ok p
  | label :: rest => do
    let source ← orFail ((model.function label).mapError .nowhere)
    match p.find? label with
    | none => throw (.error (.nowhere (.undefinedFunction label)))
    | some f =>
      let f ← frame globals source f
      frames model globals (p.insert label f) rest

/-- Turns the slots of the functions with the given labels into addresses. -/
def anchorAll (p : Program) : List String → Except Failure Program
  | [] => .ok p
  | label :: rest =>
    match p.find? label with
    | none => anchorAll p rest
    | some f => do
      let f ← anchor f
      anchorAll (p.insert label f) rest

/-- Gives storage to a whole program. -/
def allocate (model : Model.Program) (p : Program) (forest : Forest) :
    Except Failure (Program × Layout) := do
  let constants ← placeConstants model
  let cursors ← placeVariables model forest constants.addresses
  let order := forest.reachable
  let p ← frames model cursors.addresses p order
  let free : Mark := ⟨cursors.registers, cursors.bits⟩
  let p ← stack p free forest.main
  let mainLine ← highWater p free forest.main
  let (p, top) ← stackHandlers p mainLine [] forest.interrupts
  checkHandlers p mainLine (forest.interrupts.flatMap fun h => h.2.discovery)
  let p ← anchorAll p order
  return (p, {
    addresses := cursors.addresses
    order
    registers := top.registers
    bits := top.bits
    ram := cursors.ram
    constants := constants.used })

end Stackless.Storage
