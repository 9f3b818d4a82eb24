import Mathlib.Logic.Function.Basic
import Stackless.Proofs.Writes

/-!
# The processor on straight-line code

A machine has words in its registers and in the RAM, truth values in its bits, flags, and a
**trace** of the ports that were read and written.  `Processor.run` executes lines one after
the other; it gives nothing for a command that would leave the line.

What a statement about code need not know is left open in `Processor`: how words are divided,
shifted and ordered, what the constants ROM holds, what flags a command leaves, and what a
port gives, which may depend on everything that was read and written before.

Lines change only the cells that they write (`run_frame`).
-/

namespace Stackless

open Flat (File Width Space)
open Model (CompareOp)
open Assembly

/-- The words of the processor. -/
abbrev Word := BitVec 18

/-- What a cell holds. -/
inductive Datum where
  | word (value : Word)
  | bit (value : Bool)
  deriving DecidableEq, Inhabited

namespace Datum

/-- The width of what a cell holds. -/
def width : Datum → Width
  | .word _ => .word
  | .bit _ => .bit

/-- As a word, a truth value is 0 or 1. -/
def toWord : Datum → Word
  | .word value => value
  | .bit value => if value then 1 else 0

/-- As a truth value, a word is whether it is not 0. -/
def toBit : Datum → Bool
  | .word value => value ≠ 0
  | .bit value => value

@[simp]
theorem toWord_word (value : Word) : (Datum.word value).toWord = value :=
  rfl

@[simp]
theorem toBit_bit (value : Bool) : (Datum.bit value).toBit = value :=
  rfl

end Datum

/-- A port was read or written. The words are part of the event, so that equal traces mean equal
input and output. -/
inductive Event where
  | read (port : Nat) (value : Word)
  | wrote (port : Nat) (value : Word)
  deriving DecidableEq

/-- What is left open about the processor and what surrounds it. How words are divided, shifted and
ordered, and what ports and the constants ROM hold, may be anything, so that results hold of every
processor. -/
structure Processor where
  div : Word → Word → Word
  mod : Word → Word → Word
  shr : Word → Word → Word
  shl : Word → Word → Word
  /-- The order of words. -/
  less : Word → Word → Bool
  /-- What the constants ROM holds. -/
  constants : Word → Word
  /-- What a port gives after what was read and written so far. -/
  input : List Event → Nat → Word
  /-- The flags that a command leaves which compares nothing. -/
  flags : Command → (CompareOp → Bool) → CompareOp → Bool

/-- The state of the processor. Registers and bits are functions on all numbers, and the flags say
of every comparison whether it holds; the trace is all that has been seen at the ports. -/
structure Machine where
  registers : Nat → Word
  bits : Nat → Bool
  ram : Word → Word
  flags : CompareOp → Bool
  trace : List Event

namespace Machine

/-- What a cell holds. -/
def datum (s : Machine) : File × Nat → Datum
  | (.register, address) => .word (s.registers address)
  | (.bit, address) => .bit (s.bits address)

/-- What a source gives. -/
def word (s : Machine) : Source → Word
  | .cell address => s.registers address
  | .immediate value => BitVec.ofInt 18 value

/-- The machine with another word in a register. -/
def putRegister (s : Machine) (target : Nat) (value : Word) : Machine :=
  { s with registers := Function.update s.registers target value }

/-- The machine with another bit. -/
def putBit (s : Machine) (target : Nat) (value : Bool) : Machine :=
  { s with bits := Function.update s.bits target value }

section Put

variable (s : Machine) (target : Nat) (value : Word) (truth : Bool)

@[simp]
theorem putRegister_self : (s.putRegister target value).registers target = value :=
  Function.update_self ..

theorem putRegister_of_ne {other : Nat} (h : other ≠ target) :
    (s.putRegister target value).registers other = s.registers other :=
  Function.update_of_ne h ..

@[simp]
theorem putRegister_bits : (s.putRegister target value).bits = s.bits :=
  rfl

@[simp]
theorem putRegister_ram : (s.putRegister target value).ram = s.ram :=
  rfl

@[simp]
theorem putRegister_trace : (s.putRegister target value).trace = s.trace :=
  rfl

@[simp]
theorem putBit_self : (s.putBit target truth).bits target = truth :=
  Function.update_self ..

theorem putBit_of_ne {other : Nat} (h : other ≠ target) :
    (s.putBit target truth).bits other = s.bits other :=
  Function.update_of_ne h ..

@[simp]
theorem putBit_registers : (s.putBit target truth).registers = s.registers :=
  rfl

@[simp]
theorem putBit_ram : (s.putBit target truth).ram = s.ram :=
  rfl

@[simp]
theorem putBit_trace : (s.putBit target truth).trace = s.trace :=
  rfl

/-- Other cells stay when a register is written. -/
theorem datum_putRegister {cell : File × Nat} (h : cell ≠ (.register, target)) :
    (s.putRegister target value).datum cell = s.datum cell := by
  obtain ⟨file, address⟩ := cell
  cases file with
  | register =>
      have hne : address ≠ target := fun heq => h (congrArg (Prod.mk File.register) heq)
      simp only [datum, s.putRegister_of_ne target value hne]
  | bit => rfl

/-- Other cells stay when a bit is written. -/
theorem datum_putBit {cell : File × Nat} (h : cell ≠ (.bit, target)) :
    (s.putBit target truth).datum cell = s.datum cell := by
  obtain ⟨file, address⟩ := cell
  cases file with
  | register => rfl
  | bit =>
      have hne : address ≠ target := fun heq => h (congrArg (Prod.mk File.bit) heq)
      simp only [datum, s.putBit_of_ne target truth hne]

/-- A source that is not the register that was written gives what it gave. -/
theorem word_putRegister {source : Source} (h : source ≠ .cell target) :
    (s.putRegister target value).word source = s.word source := by
  cases source with
  | cell address => exact s.putRegister_of_ne target value fun heq => h (congrArg Source.cell heq)
  | immediate value => rfl

end Put

end Machine

/-- What an operation of the processor makes of the word in its target and of its source. -/
def Processor.reckon (p : Processor) : WordOp → Word → Word → Word
  | .add, a, b => a + b
  | .sub, a, b => a - b
  | .mul, a, b => a * b
  | .div, a, b => p.div a b
  | .mod, a, b => p.mod a b
  | .shr, a, b => p.shr a b
  | .shl, a, b => p.shl a b
  | .neg, _, b => -b
  | .and, a, b => a &&& b
  | .or, a, b => a ||| b
  | .xor, a, b => a ^^^ b
  | .inv, _, b => ~~~b

/-- What an operation of the processor makes of the bit in its target and of its source. -/
def joinBits : BitOp → Bool → Bool → Bool
  | .and, a, b => a && b
  | .or, a, b => a || b
  | .not, _, b => !b

/-- Whether two words compare in a way. Every comparison is settled by equality and by the order
that the processor has. -/
def Processor.orders (p : Processor) (a b : Word) : CompareOp → Bool
  | .eq => a == b
  | .ne => a != b
  | .gt => p.less b a
  | .lt => p.less a b
  | .ge => !p.less a b
  | .le => !p.less b a

/-- Whether two bits compare in a way; false is less than true. -/
def orderBits (a b : Bool) : CompareOp → Bool
  | .eq => a == b
  | .ne => a != b
  | .gt => a && !b
  | .lt => !a && b
  | .ge => a || !b
  | .le => !a || b

namespace Processor

variable (p : Processor)

/-- What is in a memory. -/
def memory (s : Machine) : Space → Word → Word
  | .ram => s.ram
  | .rom => p.constants

/-- Executes a command, unless it leaves the line. -/
def step (s : Machine) (command : Command) : Option Machine :=
  let next := { s with flags := p.flags command s.flags }
  match command with
  | .move target source => some (next.putRegister target (s.word source))
  | .word op target source =>
    some (next.putRegister target (p.reckon op (s.registers target) (s.word source)))
  | .moveBit target source => some (next.putBit target (s.bits source))
  | .bit op target source =>
    some (next.putBit target (joinBits op (s.bits target) (s.bits source)))
  | .setBit target value => some (next.putBit target value)
  | .input target port =>
    let value := p.input s.trace port
    some (Machine.putRegister { next with trace := s.trace ++ [.read port value] } target value)
  | .output port source =>
    some { next with trace := s.trace ++ [.wrote port (s.registers source)] }
  | .load space target pointer =>
    some (next.putRegister target (p.memory s space (s.registers pointer)))
  | .store pointer source =>
    some { next with ram := Function.update s.ram (s.registers pointer) (s.registers source) }
  | .compare lhs rhs => some { s with flags := p.orders (s.registers lhs) (s.word rhs) }
  | .compareBit lhs rhs => some { s with flags := orderBits (s.bits lhs) (s.bits rhs) }
  | .test op target => some (next.putBit target (s.flags op))
  | _ => none

/-- Executes lines one after the other. Labels, comments and blank lines do nothing, and lines that
transfer control are not executed, so that a run over them has no end. -/
def run : List Line → Machine → Option Machine
  | [], s => some s
  | .command command :: rest, s => (p.step s command).bind (run rest)
  | _ :: rest, s => run rest s

variable {p} {s s' : Machine}

@[simp]
theorem run_nil : p.run [] s = some s :=
  rfl

@[simp]
theorem run_command {command : Command} {rest : List Line} :
    p.run (.command command :: rest) s = (p.step s command).bind (p.run rest) :=
  rfl

@[simp]
theorem run_blank {rest : List Line} : p.run (.blank :: rest) s = p.run rest s :=
  rfl

/-- Lines with more lines behind them. -/
theorem run_append {xs ys : List Line} : p.run (xs ++ ys) s = (p.run xs s).bind (p.run ys) := by
  induction xs generalizing s with
  | nil => rfl
  | cons l rest ih =>
      cases l with
      | command command =>
          cases hstep : p.step s command with
          | none => simp [hstep]
          | some mid => simp [hstep, ih]
      | _ => exact ih

/-- A command changes the cell that it writes. -/
theorem step_frame {command : Command} {cell : File × Nat} (h : p.step s command = some s')
    (hcell : command.writes? ≠ some cell) : s'.datum cell = s.datum cell := by
  cases command with
  | move | word | load | input =>
      cases h
      exact Machine.datum_putRegister _ _ _ fun heq => hcell (congrArg some heq.symm)
  | moveBit | bit | setBit | test =>
      cases h
      exact Machine.datum_putBit _ _ _ fun heq => hcell (congrArg some heq.symm)
  | output | store | compare | compareBit =>
      cases h
      rfl
  | _ => cases h

/-- **Lines change only the cells that they write.**  A run that ends leaves every other register
and bit as it was; the RAM, ports and flags are not spoken of. -/
theorem run_frame {lines : List Line} {cell : File × Nat} (h : p.run lines s = some s')
    (hcell : cell ∉ cellsWritten lines) : s'.datum cell = s.datum cell := by
  induction lines generalizing s with
  | nil =>
      cases h
      rfl
  | cons l rest ih =>
      have hrest : cell ∉ cellsWritten rest := by
        intro hmem
        refine hcell ?_
        rw [← List.singleton_append, cellsWritten_append]
        exact List.mem_append_right _ hmem
      cases l with
      | command command =>
          obtain ⟨mid, hmid, hrun⟩ := Option.bind_eq_some_iff.mp h
          rw [ih hrun hrest]
          refine step_frame hmid fun heq => hcell ?_
          have hline : (Line.command command).writes? = some cell := heq
          rw [cellsWritten_cons_some hline]
          exact List.mem_cons_self
      | _ => exact ih h hrest

end Processor

end Stackless
