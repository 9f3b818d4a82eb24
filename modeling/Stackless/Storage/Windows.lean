import Stackless.Calls.Forest

/-!
# Windows of functions

Once every function knows how many slots it needs, the functions get their
**windows**.  Along a call chain windows stand on top of one another: a callee
starts where its caller ends.  A function on several chains takes the highest
start.  Functions that are never active together may share addresses.

A handler can interrupt the main line anywhere, so the handlers' windows start
above the **high-water mark** of the main line, one handler above the other.

In the end relative slots become addresses.  Slots count down: the first slot
of a window is at its top.
-/

namespace Stackless.Storage

open Flat (Program Function Window Offset Op)
open Calls (CallTree Forest)

/-- The next free register and bit. -/
structure Mark where
  registers : Nat
  bits : Nat
  deriving DecidableEq, Inhabited

/-- The mark above a function that stands on a mark. -/
def Mark.above (m : Mark) (f : Function) : Except Failure Mark := do
  let registers ← checkWord (m.registers + f.registers.count)
  let bits ← checkWord (m.bits + f.bits.count)
  return { registers, bits }

/-- The function with windows that start at the mark, unless they start higher
already. -/
def raise (f : Function) (m : Mark) : Function :=
  { f with
    registers := { f.registers with base := max f.registers.base m.registers }
    bits := { f.bits with base := max f.bits.base m.bits } }

mutual

/-- Puts the functions of a tree onto a mark, callees on their callers. -/
def stack (p : Program) (m : Mark) : CallTree → Except Failure Program
  | .node name calls =>
    match p.find? name with
    | none => .error (.error (.nowhere (.undefinedFunction name)))
    | some f => do
      let above ← m.above f
      stackAll (p.insert name (raise f m)) above calls

/-- Puts the functions of several trees onto the same mark. -/
def stackAll (p : Program) (m : Mark) : List CallTree → Except Failure Program
  | [] => .ok p
  | tree :: rest => do
    let p ← stack p m tree
    stackAll p m rest

end

/-- The higher of a mark and the end of a function's windows. -/
def Mark.cover (m : Mark) (f : Function) : Except Failure Mark := do
  let registers ← f.registers.upper
  let bits ← f.bits.upper
  return { registers := max m.registers registers, bits := max m.bits bits }

/-- The first register and bit above a mark and above all functions of a tree. -/
def highWater (p : Program) (m : Mark) (tree : CallTree) : Except Failure Mark :=
  (tree.discovery.filterMap p.find?).foldlM Mark.cover m

/-- Puts handlers above a mark, one above the other; a function that serves
several levels is placed once. -/
def stackHandlers (p : Program) (m : Mark) (placed : List String) :
    List (Nat × CallTree) → Except Failure (Program × Mark)
  | [] => .ok (p, m)
  | (_, tree) :: rest =>
    if tree.name ∈ placed then stackHandlers p m placed rest
    else do
      let p ← stack p m tree
      let m ← highWater p m tree
      stackHandlers p m (placed ++ [tree.name]) rest

/-- Whether a function's windows reach below a mark. -/
def reachesBelow (m : Mark) (f : Function) : Except Failure Bool := do
  let registers ← f.registers.overlaps { base := 0, count := m.registers }
  if registers then return true
  else f.bits.overlaps { base := 0, count := m.bits }

/-- The functions of handlers must keep above the main line. -/
def checkHandlers (p : Program) (m : Mark) : List String → Except Failure Unit
  | [] => .ok ()
  | label :: rest =>
    match p.find? label with
    | none => checkHandlers p m rest
    | some f => do
      if ← reachesBelow m f then
        throw (.error (.nowhere (.internal label 0 .windowOverlap)))
      else checkHandlers p m rest

/-- The address of a slot of a window. -/
def addressIn (w : Window) (slot : Nat) : Except Failure Nat := do
  let top ← w.upper
  let below ← checkedSub top slot
  checkedSub below 1

/-- An offset with its address, if it is a slot of one of the windows. -/
def anchorOffset (registers bits : Window) : Offset → Except Failure Offset
  | .relative .register slot => do
    let address ← addressIn registers slot
    return .absolute address
  | .relative .bit slot => do
    let address ← addressIn bits slot
    return .absolute address
  | offset => .ok offset

/-- A function with all slots turned into addresses. -/
def anchor (f : Function) : Except Failure Function := do
  let body ← f.body.mapM fun op => do
    let offset ← anchorOffset f.registers f.bits op.offset
    return { op with offset }
  let locals ← Table.mapM (anchorOffset f.registers f.bits) f.locals
  return { f with body, locals }

end Stackless.Storage
