import Stackless.Flat.Flatten
import Stackless.Proofs.Machine

/-!
# What an assignment means

Expressions are evaluated in a **scene**: a machine, and where the variables are in it.  All
variables are read as they are in the scene.  Ports are read as evaluation comes to them, from
left to right, so evaluation also gives the trace that it leaves.

A RAM array, or an array of constants, stands for its address.  An array in a register is
wherever the register points to.

`Scene.assign` is the machine after an assignment, with nothing else changed.
-/

namespace Stackless

open Flat (Context File Space Var)
open Model (Expr Symbol MathOp)

/-- What an operation with two operands means on words. -/
def Processor.binary (p : Processor) : MathOp → Word → Word → Word
  | .add, a, b => a + b
  | .sub, a, b => a - b
  | .mul, a, b => a * b
  | .div, a, b => p.div a b
  | .mod, a, b => p.mod a b
  | .shr, a, b => p.shr a b
  | .shl, a, b => p.shl a b
  | .and, a, b => a &&& b
  | .or, a, b => a ||| b
  | .xor, a, b => a ^^^ b
  | _, a, _ => a

/-- What an operation with one operand means on words. -/
def Processor.unary : MathOp → Word → Word
  | .neg, a => -a
  | .not, a => ~~~a
  | _, a => a

/-- What an operation with two operands means on truth values. -/
def logic : MathOp → Bool → Bool → Bool
  | .and, a, b | .logicalAnd, a, b => a && b
  | .or, a, b | .logicalOr, a, b => a || b
  | _, a, _ => a

/-- The memory that the elements of an array are in. -/
def Model.Symbol.space (symbol : Symbol) : Space :=
  match symbol.storage, symbol.type with
  | .rom, _ | .register, .rom => .rom
  | _, _ => .ram

/-- The value of a constant that is no array. -/
def Model.Symbol.literal (symbol : Symbol) : Datum :=
  let value := symbol.values.head?.getD 0
  match symbol.type with
  | .bool => .bit (value ≠ 0)
  | _ => .word (BitVec.ofInt 18 value.toInt)

/-- A machine, and where variables are. It is all that the meaning of an expression depends on,
besides what its names stand for. -/
structure Scene where
  processor : Processor
  address : Var → Nat
  machine : Machine

/-- What can be assigned to: a register or a bit, a word of the RAM, or a port. -/
inductive Location where
  | cell (cell : File × Nat)
  /-- A word of the RAM. -/
  | memory (address : Word)
  | port (port : Nat)
  deriving DecidableEq, Inhabited

/-- The machine after something was assigned to a location. -/
def Machine.put (s : Machine) : Location → Datum → Machine
  | .cell (.register, address), value => s.putRegister address value.toWord
  | .cell (.bit, address), value => s.putBit address value.toBit
  | .memory address, value => { s with ram := Function.update s.ram address value.toWord }
  | .port port, value => { s with trace := s.trace ++ [.wrote port value.toWord] }

namespace Machine

variable (s : Machine) {cell : File × Nat} (a : Datum)

@[simp]
theorem put_cell_ram : (s.put (.cell cell) a).ram = s.ram := by
  obtain ⟨file, address⟩ := cell
  cases file <;> rfl

@[simp]
theorem put_cell_trace : (s.put (.cell cell) a).trace = s.trace := by
  obtain ⟨file, address⟩ := cell
  cases file <;> rfl

/-- What a cell holds behind an assignment to it does not depend on what it held. -/
theorem datum_put_self (s' : Machine) :
    (s.put (.cell cell) a).datum cell = (s'.put (.cell cell) a).datum cell := by
  obtain ⟨file, address⟩ := cell
  cases file with
  | register =>
      show Datum.word ((putRegister ..).registers address) =
        Datum.word ((putRegister ..).registers address)
      rw [putRegister_self, putRegister_self]
  | bit =>
      show Datum.bit ((putBit ..).bits address) = Datum.bit ((putBit ..).bits address)
      rw [putBit_self, putBit_self]

/-- A cell that is assigned what it can hold holds it. -/
theorem datum_put_of_datum {s' : Machine} (h : s'.datum cell = a) :
    (s.put (.cell cell) a).datum cell = a := by
  obtain ⟨file, address⟩ := cell
  subst h
  cases file with
  | register =>
      show Datum.word ((putRegister ..).registers address) = _
      rw [putRegister_self]
      rfl
  | bit =>
      show Datum.bit ((putBit ..).bits address) = _
      rw [putBit_self]
      rfl

/-- Other cells stay when a cell is assigned to. -/
theorem datum_put_of_ne {other : File × Nat} (h : other ≠ cell) :
    (s.put (.cell cell) a).datum other = s.datum other := by
  obtain ⟨file, address⟩ := cell
  cases file with
  | register => exact s.datum_putRegister _ _ h
  | bit => exact s.datum_putBit _ _ h

end Machine

namespace Scene

variable (scene : Scene) (ctx : Context)

/-- The read of a port. -/
def input (port : Nat) (trace : List Event) : Datum × List Event :=
  let value := scene.processor.input trace port
  (.word value, trace ++ [.read port value])

/-- The value of a variable. -/
def read (var : Var) (symbol : Symbol) (trace : List Event) : Datum × List Event :=
  match symbol.storage with
  | .register => (scene.machine.datum (.register, scene.address var), trace)
  | .bit => (scene.machine.datum (.bit, scene.address var), trace)
  | .ram => (.word (BitVec.ofNat 18 (scene.address var)), trace)
  | .port => scene.input (scene.address var) trace
  | .rom =>
    if symbol.isArray then (.word (BitVec.ofNat 18 (scene.address var)), trace)
    else (symbol.literal, trace)

/-- The address of the first element of an array. -/
def base (var : Var) (symbol : Symbol) : Word :=
  match symbol.storage with
  | .register => scene.machine.registers (scene.address var)
  | _ => BitVec.ofNat 18 (scene.address var)

/-- The value of an expression without calls, and the trace that its evaluation leaves. -/
def eval : Expr → List Event → Datum × List Event
  | .int value, trace => (.word (BitVec.ofInt 18 value.toInt), trace)
  | .bool value, trace => (.bit value, trace)
  | .var label, trace =>
    match ctx.symbol label with
    | .ok (var, symbol) => scene.read var symbol trace
    | .error _ => (default, trace)
  | .index label index, trace =>
    let offset := eval index trace
    match ctx.symbol label with
    | .ok (var, symbol) =>
      (.word (scene.processor.memory scene.machine symbol.space
        (scene.base var symbol + offset.1.toWord)), offset.2)
    | .error _ => (default, offset.2)
  | .unary op operand, trace =>
    let a := eval operand trace
    (if op.isLogical then .bit (!a.1.toBit) else .word (Processor.unary op a.1.toWord), a.2)
  | .binary op lhs rhs, trace =>
    let a := eval lhs trace
    let b := eval rhs a.2
    (if op.isLogical then .bit (logic op a.1.toBit b.1.toBit)
      else .word (scene.processor.binary op a.1.toWord b.1.toWord), b.2)
  | .compare op lhs rhs, trace =>
    let a := eval lhs trace
    let b := eval rhs a.2
    (match a.1 with
      | .word left => .bit (scene.processor.orders left b.1.toWord op)
      | .bit left => .bit (orderBits left b.1.toBit op), b.2)
  | .call _ _, trace => (default, trace)

/-- The location of the target of an assignment, and the trace that finding it leaves. -/
def locate : Expr → List Event → Location × List Event
  | .var label, trace =>
    match ctx.symbol label with
    | .ok (var, symbol) =>
      (match symbol.storage with
        | .port => .port (scene.address var)
        | .bit => .cell (.bit, scene.address var)
        | _ => .cell (.register, scene.address var), trace)
    | .error _ => (default, trace)
  | .index label index, trace =>
    let offset := scene.eval ctx index trace
    match ctx.symbol label with
    | .ok (var, symbol) => (.memory (scene.base var symbol + offset.1.toWord), offset.2)
    | .error _ => (default, offset.2)
  | _, trace => (default, trace)

/-- What is at a location. -/
def get : Location → List Event → Datum × List Event
  | .cell cell, trace => (scene.machine.datum cell, trace)
  | .memory address, trace => (.word (scene.machine.ram address), trace)
  | .port port, trace => scene.input port trace

/-- What a compound assignment makes of what was there. Whether it works on words or on truth values
depends on the target. -/
def change (op : MathOp) (old value : Datum) : Datum :=
  match old with
  | .word a => .word (scene.processor.binary op a value.toWord)
  | .bit a => .bit (logic op a value.toBit)

/-- What is assigned to a location, and the trace that is left before. A compound assignment reads
its target first, which for a port is an event. -/
def assigned (location : Location) (op : Option MathOp) (value : Datum) (trace : List Event) :
    Datum × List Event :=
  match op with
  | none => (value, trace)
  | some op =>
    let old := scene.get location trace
    (scene.change op old.1 value, old.2)

/-- Where an assignment goes to: first the value is computed, then the place is found. -/
def target (target value : Expr) : Location × List Event :=
  scene.locate ctx target (scene.eval ctx value scene.machine.trace).2

/-- **The machine after an assignment.**  The target is found and the value computed on the machine
before, the change is made on what the target holds, and the result is put there. -/
def assign (target : Expr) (op : Option MathOp) (value : Expr) : Machine :=
  let place := scene.target ctx target value
  let result := scene.assigned place.1 op (scene.eval ctx value scene.machine.trace).1 place.2
  { scene.machine with trace := result.2 }.put place.1 result.1

end Scene

end Stackless
