import Stackless.Flat.Instruction
import Stackless.Text.Column

/-!
# Assembly

The target is Proc18, an 18-bit processor without a stack.  It has a register
file and a bit file, a RAM and a constants ROM that are reached through
addresses held in registers, and ports.  Register 1 is scratch for sequences
that load, change and store; bit 0 receives truth tests.

A program is a list of **lines**.  Commands are kept as what they do and turned
into text last, so that statements about the output need not read text back.
-/

namespace Stackless.Assembly

open Model (CompareOp HardwareConfig)
open Flat (Space)

/-- What the processor computes with words. -/
inductive WordOp where
  | add
  | sub
  | mul
  | div
  | mod
  | shr
  | shl
  | neg
  | and
  | or
  | xor
  | inv
  deriving DecidableEq, Inhabited

/-- What the processor computes with bits. -/
inductive BitOp where
  | and
  | or
  | not
  deriving DecidableEq, Inhabited

/-- Where a word comes from: a register, or the command itself. -/
inductive Source where
  | cell (address : Nat)
  | immediate (value : Int)
  deriving DecidableEq, Inhabited

/-- A command of the processor. -/
inductive Command where
  /-- Copies a word into a register. -/
  | move (target : Nat) (source : Source)
  /-- Combines a register with a word, in place. -/
  | word (op : WordOp) (target : Nat) (source : Source)
  /-- Copies a bit. -/
  | moveBit (target source : Nat)
  /-- Combines a bit with another, in place; `not` takes the other alone. -/
  | bit (op : BitOp) (target source : Nat)
  /-- Sets or clears a bit. -/
  | setBit (target : Nat) (value : Bool)
  /-- Reads a port into a register. -/
  | input (target port : Nat)
  /-- Writes a register to a port. -/
  | output (port source : Nat)
  /-- Reads the word whose address is in `pointer` into a register. -/
  | load (space : Space) (target pointer : Nat)
  /-- Writes a register to the RAM word whose address is in `pointer`. -/
  | store (pointer source : Nat)
  /-- Compares a register with a word; the outcome stays in the flags. -/
  | compare (lhs : Nat) (rhs : Source)
  /-- Compares two bits; the outcome stays in the flags. -/
  | compareBit (lhs rhs : Nat)
  /-- Sets a bit to whether the flags satisfy a comparison. -/
  | test (op : CompareOp) (target : Nat)
  | jump (label : String)
  /-- Jumps if the flags satisfy a comparison. -/
  | jumpIf (op : CompareOp) (label : String)
  | call (label : String)
  /-- Returns to the caller, or from an interrupt. -/
  | ret (fromInterrupt : Bool)
  | timer (source : Source)
  | level (level : Int32)
  | halt
  | pause
  | reset
  | restart
  | nop
  deriving DecidableEq, Inhabited

/-- A line of an assembly program. -/
inductive Line where
  /-- The widths of the address buses. -/
  | config (config : HardwareConfig)
  /-- Starts a memory at address 0. -/
  | origin
  /-- Words of the constants ROM. -/
  | constants (values : List Int32)
  /-- Names the place of the next command. -/
  | label (name : String)
  | command (command : Command)
  /-- A line of dashes. -/
  | rule
  | comment (text : String)
  | blank
  deriving DecidableEq, Inhabited

/-- The mnemonic of a word operation. -/
def WordOp.mnemonic : WordOp → String
  | .add => "ADD"
  | .sub => "SUB"
  | .mul => "MUL"
  | .div => "DIV"
  | .mod => "MOD"
  | .shr => "SHR"
  | .shl => "SHL"
  | .neg => "NEG"
  | .and => "AND"
  | .or => "OR"
  | .xor => "XOR"
  | .inv => "INV"

/-- The mnemonic of a bit operation. -/
def BitOp.mnemonic : BitOp → String
  | .and => "BAND"
  | .or => "BOR"
  | .not => "BNOT"

/-- The two letters of a comparison in the mnemonics of tests and jumps. -/
def conditionLetters : CompareOp → String
  | .eq => "EQ"
  | .ne => "NE"
  | .gt => "GT"
  | .lt => "LT"
  | .ge => "GE"
  | .le => "LE"

/-- A source as text. -/
def Source.text : Source → String
  | .cell address => toString address
  | .immediate value => "#" ++ toString value

/-- Two operands. -/
def pair (first second : String) : String :=
  first ++ ", " ++ second

/-- An operand that holds an address. -/
def indirect (pointer : Nat) : String :=
  "(" ++ toString pointer ++ ")"

/-- The mnemonic of a command, and its operands if it has any. -/
def Command.parts : Command → String × Option String
  | .move target source => ("MOV", some (pair (toString target) source.text))
  | .word op target source => (op.mnemonic, some (pair (toString target) source.text))
  | .moveBit target source => ("BMOV", some (pair (toString target) (toString source)))
  | .bit op target source => (op.mnemonic, some (pair (toString target) (toString source)))
  | .setBit target true => ("BSET", some (toString target))
  | .setBit target false => ("BCLR", some (toString target))
  | .input target port => ("IN", some (pair (toString target) (toString port)))
  | .output port source => ("OUT", some (pair (toString port) (toString source)))
  | .load .ram target pointer => ("LDR", some (pair (toString target) (indirect pointer)))
  | .load .rom target pointer => ("LDC", some (pair (toString target) (indirect pointer)))
  | .store pointer source => ("STR", some (pair (indirect pointer) (toString source)))
  | .compare lhs rhs => ("CMP", some (pair (toString lhs) rhs.text))
  | .compareBit lhs rhs => ("BCMP", some (pair (toString lhs) (toString rhs)))
  | .test op target => ("S" ++ conditionLetters op, some (toString target))
  | .jump label => ("JMP", some label)
  | .jumpIf op label => ("J" ++ conditionLetters op, some label)
  | .call label => ("CALL", some label)
  | .ret false => ("RTS", none)
  | .ret true => ("RTI", none)
  | .timer source => ("TIMER", some source.text)
  | .level n => ("LEVEL", some ("#" ++ toString n.toInt))
  | .halt => ("HALT", none)
  | .pause => ("PAUSE", none)
  | .reset => ("RESET", none)
  | .restart => ("RESTART", none)
  | .nop => ("NOP", none)

/-- An indented line: a mnemonic, and operands in a column of their own. -/
def indented (mnemonic : String) : Option String → String
  | none => "    " ++ mnemonic
  | some operands => "    " ++ Text.alignLeft 6 mnemonic ++ "  " ++ operands

/-- Words with blanks between them. -/
def spaced (words : List String) : String :=
  String.intercalate " " words

/-- A line as text, without its end. -/
def Line.text : Line → String
  | .config c =>
    indented "CONFIG" (some (spaced
      [toString c.romBits.toNat, toString c.ramBits.toNat, toString c.constBits.toNat]))
  | .origin => indented "ORG" (some "0")
  | .constants values => indented "DC" (some (spaced (values.map fun n => toString n.toInt)))
  | .label name => name
  | .command c => indented c.parts.1 c.parts.2
  | .rule => ";----------------------"
  | .comment text => "; " ++ text
  | .blank => ""

/-- Lines as text, each with its end. -/
def render (lines : List Line) : String :=
  String.join (lines.map fun line => line.text ++ "\n")

end Stackless.Assembly
