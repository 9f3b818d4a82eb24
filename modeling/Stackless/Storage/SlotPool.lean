/-!
# Slots that are used again

Temporaries of a function live from the instruction that computes them to the
last one that names them.  A **slot pool** hands out the slots of one file: a
slot whose value is no longer needed may be used again, and of the slots that
may be, the one that was free first is taken.

The two files differ in when a value counts as gone.  In the register file its
last use must lie strictly before the new value (*strict*); in the bit file it
may be the very instruction that computes the new value (*inclusive*).

A slot that is **pinned** is never used again.
-/

namespace Stackless.Storage

/-- When the life of a value makes room for another. -/
inductive Reuse where
  | strict
  | inclusive
  deriving DecidableEq, Inhabited

/-- Whether a slot whose value is used last at `expiry` is free at `start`. -/
def Reuse.expired : Reuse → (expiry start : Nat) → Bool
  | .strict, expiry, start => expiry < start
  | .inclusive, expiry, start => expiry ≤ start

/-- A life of a slot: the last use of its value, and the slot. -/
structure Life where
  expiry : Nat
  slot : Nat
  deriving DecidableEq, Inhabited

/-- Lives are ordered by expiry, lives of one expiry by slot. -/
def Life.before (a b : Life) : Bool :=
  a.expiry < b.expiry || (a.expiry = b.expiry && a.slot < b.slot)

/-- Puts a life into an ordered list. -/
def enqueue (life : Life) : List Life → List Life
  | [] => [life]
  | first :: rest =>
    if life.before first then life :: first :: rest else first :: enqueue life rest

/-- The slots of one file: how many there are, and the current life of each one
that is not pinned, in order. -/
structure SlotPool where
  reuse : Reuse
  count : Nat := 0
  lives : List Life := []
  deriving DecidableEq, Inhabited

namespace SlotPool

/-- The pool of the register file. -/
def registers : SlotPool := { reuse := .strict }

/-- The pool of the bit file. -/
def bits : SlotPool := { reuse := .inclusive }

/-- Takes a new slot for good. -/
def pin (p : SlotPool) : Nat × SlotPool :=
  (p.count, { p with count := p.count + 1 })

/-- The slot that is free first, if it is free at `start`, and the other lives. -/
def expired? (p : SlotPool) (start : Nat) : Option (Nat × List Life) :=
  match p.lives with
  | [] => none
  | first :: rest => if p.reuse.expired first.expiry start then some (first.slot, rest) else none

/-- Takes a slot for a value that is computed at `start` and used last at
`last`. -/
def claim (p : SlotPool) (start last : Nat) : Nat × SlotPool :=
  match p.expired? start with
  | some (slot, rest) => (slot, { p with lives := enqueue ⟨last, slot⟩ rest })
  | none =>
    let (slot, p) := p.pin
    (slot, { p with lives := enqueue ⟨last, slot⟩ p.lives })

end SlotPool

end Stackless.Storage
