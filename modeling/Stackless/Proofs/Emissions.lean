import Stackless.Compilation
import Stackless.Proofs.Outcome

/-!
# What an emission wrote

An emission that ended well is its lines and its value.  `Emission.Writes` says so,
and one lemma for each way of putting emissions together takes them apart again:

* `writes_bind` — the lines of the first come before the lines of the second;
* `writes_silent_bind` — a computation that writes nothing gives its value;
* `writes_command_bind` — a command is the first line.

With these, each emitter of commands has a lemma that says exactly when it ends well
and what it has written then, and `opLines_writes` says it for an op, by its instruction.
The output as a whole is a prelude and one section for each function of the layout
(`compile_writes`), and a section is its heading and the lines of its ops, one op after
the other (`bodyLines_writes`).
-/

namespace Stackless.Assembly

open Flat (Op Instruction Offset Width Space Var Target)

namespace Emission

variable {α β : Type}

/-- The emission ended well, with these lines and this value. All results on what is written are
stated with it, and an emission that failed writes nothing in this sense. -/
def Writes (e : Emission α) (lines : List Line) (a : α) : Prop :=
  e = ⟨lines, .ok a⟩

theorem writes_of_outcome {e : Emission α} {a : α} (h : e.outcome = .ok a) : e.Writes e.lines a := by
  obtain ⟨lines, outcome⟩ := e
  cases h
  rfl

theorem Writes.lines_eq {e : Emission α} {lines : List Line} {a : α} (h : e.Writes lines a) :
    e.lines = lines := by
  rw [h]

theorem Writes.outcome_eq {e : Emission α} {lines : List Line} {a : α} (h : e.Writes lines a) :
    e.outcome = .ok a := by
  rw [h]

/-- **Emissions one after the other** write the lines of the first and then those of the second,
which may depend on the value that the first one gave. -/
theorem writes_bind {e : Emission α} {f : α → Emission β} {lines : List Line} {b : β} :
    (e >>= f).Writes lines b ↔
      ∃ first a rest, e.Writes first a ∧ (f a).Writes rest b ∧ lines = first ++ rest := by
  obtain ⟨written, outcome⟩ := e
  constructor
  · intro h
    cases outcome with
    | error failure =>
        have houtcome := h.outcome_eq
        cases houtcome
    | ok a =>
        exact ⟨written, a, (f a).lines, rfl, writes_of_outcome h.outcome_eq, h.lines_eq.symm⟩
  · rintro ⟨first, a, rest, hfirst, hrest, rfl⟩
    cases hfirst
    show Emission.mk (written ++ (f a).lines) (f a).outcome = _
    rw [hrest]

/-- **Emissions one after the other**, the first without a value. -/
theorem writes_then {e : Emission Unit} {f : Unit → Emission β} {lines : List Line} {b : β}
    (u : Unit) : (e >>= f).Writes lines b ↔
      ∃ first, e.Writes first u ∧ ∃ rest, (f u).Writes rest b ∧ lines = first ++ rest := by
  rw [writes_bind]
  constructor
  · rintro ⟨first, _, rest, hfirst, hrest, rfl⟩
    exact ⟨first, hfirst, rest, hrest, rfl⟩
  · rintro ⟨first, hfirst, rest, hrest, rfl⟩
    exact ⟨first, u, rest, hfirst, hrest, rfl⟩

/-- A value is written without lines. -/
@[simp]
theorem writes_pure {a b : α} {lines : List Line} :
    (pure a : Emission α).Writes lines b ↔ lines = [] ∧ a = b := by
  constructor
  · intro h
    cases h
    exact ⟨rfl, rfl⟩
  · rintro ⟨rfl, rfl⟩
    rfl

/-- A computation that writes nothing gives its value. -/
@[simp]
theorem writes_silent {x : Except Failure α} {a : α} {lines : List Line} :
    (silent x).Writes lines a ↔ lines = [] ∧ x = .ok a := by
  constructor
  · intro h
    cases h
    exact ⟨rfl, rfl⟩
  · rintro ⟨rfl, rfl⟩
    rfl

/-- Lines that are written are written. -/
@[simp]
theorem writes_ofLines {ls lines : List Line} {u : Unit} :
    (ofLines ls).Writes lines u ↔ lines = ls := by
  constructor
  · intro h
    cases h
    rfl
  · rintro rfl
    rfl

@[simp]
theorem writes_line {l : Line} {lines : List Line} {u : Unit} :
    (line l).Writes lines u ↔ lines = [l] :=
  writes_ofLines

@[simp]
theorem writes_command {c : Command} {lines : List Line} {u : Unit} :
    (command c).Writes lines u ↔ lines = [.command c] :=
  writes_line

/-- A computation that writes nothing leaves all lines to what follows. -/
@[simp]
theorem writes_silent_bind {x : Except Failure α} {f : α → Emission β} {lines : List Line} {b : β} :
    (silent x >>= f).Writes lines b ↔ ∃ a, x = .ok a ∧ (f a).Writes lines b := by
  rw [writes_bind]
  constructor
  · rintro ⟨first, a, rest, hfirst, hrest, rfl⟩
    obtain ⟨rfl, ha⟩ := writes_silent.mp hfirst
    exact ⟨a, ha, hrest⟩
  · rintro ⟨a, ha, hrest⟩
    exact ⟨[], a, lines, writes_silent.mpr ⟨rfl, ha⟩, hrest, rfl⟩

/-- Lines stand before what follows. -/
theorem writes_ofLines_bind {ls : List Line} {f : Unit → Emission β} {lines : List Line} {b : β} :
    (ofLines ls >>= f).Writes lines b ↔ ∃ rest, (f ()).Writes rest b ∧ lines = ls ++ rest := by
  rw [writes_bind]
  constructor
  · rintro ⟨first, _, rest, hfirst, hrest, rfl⟩
    cases hfirst
    exact ⟨rest, hrest, rfl⟩
  · rintro ⟨rest, hrest, rfl⟩
    exact ⟨ls, (), rest, rfl, hrest, rfl⟩

@[simp]
theorem writes_command_bind {c : Command} {f : Unit → Emission β} {lines : List Line} {b : β} :
    (command c >>= f).Writes lines b ↔ ∃ rest, (f ()).Writes rest b ∧ lines = .command c :: rest :=
  writes_ofLines_bind

end Emission


namespace Writing

open Model (MathOp CompareOp)
open Emission

variable {w : Writing} {index : Nat} {lines : List Line} {u : Unit}

/-- The lines that copy a value. -/
def copied (width : Width) (target source : Nat) : List Line :=
  match width with
  | .word => [.command (.move target (.cell source))]
  | .bit => if target = source then [] else [.command (.moveBit target source)]

/-- Copying always ends well. -/
@[simp]
theorem copy_writes {width : Width} {target source : Nat} :
    (copy width target source).Writes lines u ↔ lines = copied width target source := by
  cases width with
  | word => exact writes_command
  | bit =>
      by_cases h : target = source
      · simp [copy, copied, h]
      · simp [copy, copied, h]

/-- The lines that use a word in a register. -/
def placed (source : Source) (use : Nat → Command) : List Line :=
  match source with
  | .cell address => [.command (use address)]
  | .immediate value => [.command (.move scratch (.immediate value)), .command (use scratch)]

/-- Putting a word where a register is needed always ends well. -/
@[simp]
theorem inRegister_writes {source : Source} {use : Nat → Command} :
    (inRegister source use).Writes lines u ↔ lines = placed source use := by
  cases source with
  | cell address => exact writes_command
  | immediate value => simp [inRegister, placed]

/-- The lines that write the value of an op into a slot, if it has a value. -/
def passed? (slot : Nat) (op : Op) : Option (List Line) :=
  match op.offset, op.instruction with
  | .absolute base, .ram _ | .absolute base, .rom _ => some [.command (.move slot (.immediate base))]
  | .absolute address, instruction => some (copied (widthOf instruction) slot address)
  | _, .bool value => some [.command (.setBit slot value)]
  | _, .int value => some [.command (.move slot (.immediate value.toInt))]
  | _, _ => none

/-- The op at an index is the one of the body. -/
theorem op_eq_ok {op : Op} : w.op index = .ok op ↔ w.function.body[index]? = some op := by
  unfold Writing.op
  cases w.function.body[index]? with
  | none => simp [orTrap]
  | some op' => simp [orTrap]

/-- An address is the offset of the op at an index. -/
theorem address_eq_ok {address : Nat} : w.address index = .ok address ↔
    ∃ op, w.function.body[index]? = some op ∧ op.offset = .absolute address := by
  unfold Writing.address
  rw [bind_eq_ok]
  constructor
  · rintro ⟨op, hop, h⟩
    refine ⟨op, op_eq_ok.mp hop, ?_⟩
    cases hoffset : op.offset with
    | absolute address' =>
        rw [hoffset] at h
        cases h
        rfl
    | _ =>
        rw [hoffset] at h
        cases h
  · rintro ⟨op, hop, hoffset⟩
    refine ⟨op, op_eq_ok.mpr hop, ?_⟩
    rw [hoffset]
    rfl

/-- The value of an op as a source, if it has one. -/
def source? (op : Op) : Option Source :=
  match op.offset, op.instruction with
  | .absolute base, .ram _ | .absolute base, .rom _ => some (.immediate (Int32.ofNat base).toInt)
  | .absolute address, _ => some (.cell address)
  | _, .int value => some (.immediate value.toInt)
  | _, .bool value => some (.immediate (if value then 1 else 0))
  | _, _ => none

/-- An operand is the value of the op at an index. -/
theorem operand_eq_ok {source : Source} : w.operand index = .ok source ↔
    ∃ op, w.function.body[index]? = some op ∧ source? op = some source := by
  unfold operand
  rw [bind_eq_ok]
  apply exists_congr
  intro op
  rw [op_eq_ok]
  apply and_congr_right
  intro _
  obtain ⟨instruction, offset, lastUse, position⟩ := op
  cases offset with
  | absolute address => cases instruction <;> simp [source?, pure, Except.pure]
  | _ => cases instruction <;> simp [source?, pure, Except.pure, throw, throwThe, MonadExceptOf.throw]

theorem port_eq_ok {var : Var} {port : Nat} :
    w.port index var = .ok port ↔ w.addresses.find? var.text = some port := by
  unfold Writing.port
  cases w.addresses.find? var.text with
  | none => simp
  | some address => simp

/-- A named slot is the address of a local. -/
theorem slot_eq_ok {label name : String} {slot : Nat} : w.slot index label name = .ok slot ↔
    ∃ f, w.program.find? label = some f ∧ f.locals.find? name = some (.absolute slot) := by
  unfold Writing.slot
  cases hfind : w.program.find? label with
  | none => simp
  | some f =>
      cases hlocal : f.locals.find? name with
      | none => simp [hlocal]
      | some offset =>
          cases offset with
          | absolute address => simp [hlocal]
          | _ => simp [hlocal]

/-- **Passing a value to a slot.** -/
theorem pass_writes {slot value : Nat} : (w.pass slot value).Writes lines u ↔
    ∃ op, w.function.body[value]? = some op ∧ passed? slot op = some lines := by
  unfold pass
  simp only [writes_silent_bind, op_eq_ok]
  apply exists_congr
  intro op
  apply and_congr_right
  intro hop
  obtain ⟨instruction, offset, lastUse, position⟩ := op
  cases offset with
  | absolute address =>
      have haddress : w.address value = .ok address := address_eq_ok.mpr ⟨_, hop, rfl⟩
      cases instruction with
      | ram | rom => simp [passed?, Offset.absolute?, haddress, eq_comm]
      | _ => simp [passed?, Offset.absolute?, haddress, eq_comm]
  | _ =>
      have haddress : ∀ address, w.address value ≠ .ok address := by
        intro address h
        obtain ⟨op, hop', hoffset⟩ := address_eq_ok.mp h
        rw [hop] at hop'
        cases hop'
        cases hoffset
      cases instruction with
      | bool | int => simp [passed?, Offset.absolute?, eq_comm]
      | _ => simp [passed?, Offset.absolute?, haddress]

/-- The comparison whose outcome an instruction leaves in the flags. -/
def flag? : Instruction → Option CompareOp
  | .compare op _ _ _ => some op
  | _ => none

/-- **A conditional jump.**  It follows the flags if its condition is a comparison, and
a truth test otherwise. -/
theorem branch_writes {expected : Bool} {condition : Nat} {target : Target} :
    (w.branch expected condition target).Writes lines u ↔
      ∃ op, w.function.body[condition]? = some op ∧
        match flag? op.instruction with
        | some comparison => lines = [.command (.jumpIf
            (if expected then comparison else negated comparison) target.marker), .blank]
        | none => ∃ address, w.address condition = .ok address ∧
            lines = [.command (.bit .not truth address),
              .command (.jumpIf (if expected then .eq else .ne) target.marker), .blank] := by
  unfold branch
  simp only [writes_silent_bind, op_eq_ok]
  apply exists_congr
  intro op
  apply and_congr_right
  intro _
  cases op.instruction with
  | compare => simp [flag?]
  | _ => simp [flag?]

/-- The line that puts the outcome of a comparison into a bit, if it has one. -/
def kept (op : CompareOp) (self : Op) : List Line :=
  match self.offset.absolute? with
  | some address => [.command (.test op address)]
  | none => []

/-- **A comparison.**  The flags hold the outcome, and a bit if the comparison has one. -/
theorem compare_writes {op : CompareOp} {width : Width} {lhs rhs : Nat} :
    (w.compare index op width lhs rhs).Writes lines u ↔
      ∃ self, w.function.body[index]? = some self ∧
        match width with
        | .word => ∃ left right, w.operand lhs = .ok left ∧ w.operand rhs = .ok right ∧
            lines = placed left (.compare · right) ++ kept op self
        | .bit => ∃ left right, w.address lhs = .ok left ∧ w.address rhs = .ok right ∧
            lines = .command (.compareBit left right) :: kept op self := by
  have htail : ∀ (rest : List Line), (silent (w.op index) >>= fun self =>
      match self.offset.absolute? with
      | some address => command (.test op address)
      | none => pure ()).Writes rest u ↔
      ∃ self, w.function.body[index]? = some self ∧ rest = kept op self := by
    intro rest
    simp only [writes_silent_bind, op_eq_ok]
    apply exists_congr
    intro self
    apply and_congr_right
    intro _
    unfold kept
    cases self.offset.absolute? with
    | none => simp
    | some address => simp
  cases width with
  | word =>
      constructor
      · intro h
        obtain ⟨left, hleft, h⟩ := writes_silent_bind.mp h
        obtain ⟨first, register, rest, hfirst, hrest, rfl⟩ := writes_bind.mp h
        obtain ⟨right, hright, hrest⟩ := writes_silent_bind.mp hrest
        obtain ⟨last, hlast, rfl⟩ := writes_command_bind.mp hrest
        obtain ⟨self, hself, rfl⟩ := (htail last).mp hlast
        refine ⟨self, hself, left, right, hleft, hright, ?_⟩
        cases left with
        | cell address =>
            cases hfirst
            rfl
        | immediate value =>
            cases hfirst
            rfl
      · rintro ⟨self, hself, left, right, hleft, hright, rfl⟩
        have hrest : ∀ register, (silent (w.operand rhs) >>= fun right => do
            command (.compare register right)
            let self ← silent (w.op index)
            match self.offset.absolute? with
              | some address => command (.test op address)
              | none => pure ()).Writes (.command (.compare register right) :: kept op self) u := by
          intro register
          refine writes_silent_bind.mpr ⟨right, hright, ?_⟩
          exact writes_command_bind.mpr ⟨_, (htail _).mpr ⟨self, hself, rfl⟩, rfl⟩
        refine writes_silent_bind.mpr ⟨left, hleft, ?_⟩
        cases left with
        | cell address => exact writes_bind.mpr ⟨[], address, _, rfl, hrest address, rfl⟩
        | immediate value =>
            exact writes_bind.mpr ⟨[.command (.move scratch (.immediate value))], scratch, _, rfl,
              hrest scratch, rfl⟩
  | bit =>
      constructor
      · intro h
        obtain ⟨left, hleft, h⟩ := writes_silent_bind.mp h
        obtain ⟨right, hright, h⟩ := writes_silent_bind.mp h
        obtain ⟨last, hlast, rfl⟩ := writes_command_bind.mp h
        obtain ⟨self, hself, rfl⟩ := (htail last).mp hlast
        exact ⟨self, hself, left, right, hleft, hright, rfl⟩
      · rintro ⟨self, hself, left, right, hleft, hright, rfl⟩
        refine writes_silent_bind.mpr ⟨left, hleft, writes_silent_bind.mpr ⟨right, hright, ?_⟩⟩
        exact writes_command_bind.mpr ⟨_, (htail _).mpr ⟨self, hself, rfl⟩, rfl⟩

/-- The second word of an operation; an operation with one operand works on its target. -/
def Takes (w : Writing) (target : Nat) (rhs : Option Nat) (source : Source) : Prop :=
  match rhs with
  | none => source = .cell target
  | some rhs => w.operand rhs = .ok source

/-- The lines of an operation on words. -/
def reckoned (op : WordOp) (target : Nat) (left right : Source) : List Line :=
  if left = .cell target then [.command (.word op target right)]
  else [.command (.move target left), .command (.word op target right)]

/-- **An operation on words.** -/
theorem mathWord_writes {op : MathOp} {lhs : Nat} {rhs : Option Nat} :
    (w.mathWord index op lhs rhs).Writes lines u ↔
      ∃ o target left right, w.wordOp index op = .ok o ∧ w.address index = .ok target ∧
        w.operand lhs = .ok left ∧ w.Takes target rhs right ∧
        lines = reckoned o target left right := by
  cases rhs with
  | none =>
      simp only [mathWord, writes_silent_bind, Takes, reckoned]
      constructor
      · rintro ⟨o, ho, target, htarget, left, hleft, h⟩
        refine ⟨o, target, left, _, ho, htarget, hleft, rfl, ?_⟩
        by_cases hsame : left = .cell target
        · simpa [hsame] using h
        · simpa [hsame] using h
      · rintro ⟨o, target, left, right, ho, htarget, hleft, rfl, rfl⟩
        refine ⟨o, ho, target, htarget, left, hleft, ?_⟩
        by_cases hsame : left = .cell target
        · simp [hsame]
        · simp [hsame]
  | some rhs =>
      simp only [mathWord, writes_silent_bind, Takes, reckoned]
      constructor
      · rintro ⟨o, ho, target, htarget, left, hleft, h⟩
        by_cases hsame : left = .cell target
        · rw [if_pos hsame] at h
          obtain ⟨right, hright, h⟩ := writes_silent_bind.mp h
          refine ⟨o, target, left, right, ho, htarget, hleft, hright, ?_⟩
          rw [if_pos hsame]
          exact writes_command.mp h
        · rw [if_neg hsame] at h
          obtain ⟨last, hlast, rfl⟩ := writes_command_bind.mp h
          obtain ⟨right, hright, hlast⟩ := writes_silent_bind.mp hlast
          refine ⟨o, target, left, right, ho, htarget, hleft, hright, ?_⟩
          rw [if_neg hsame, writes_command.mp hlast]
      · rintro ⟨o, target, left, right, ho, htarget, hleft, hright, rfl⟩
        refine ⟨o, ho, target, htarget, left, hleft, ?_⟩
        by_cases hsame : left = .cell target
        · simp [hsame, hright]
        · simp [hsame, hright]

/-- The lines of an operation on two bits. -/
def joined (op : BitOp) (target left right : Nat) : List Line :=
  if target = left then [.command (.bit op target right)]
  else if target = right then [.command (.bit op target left)]
  else [.command (.moveBit target left), .command (.bit op target right)]

/-- **An operation on bits.** -/
theorem mathBit_writes {op : MathOp} {lhs : Nat} {rhs : Option Nat} :
    (w.mathBit index op lhs rhs).Writes lines u ↔
      ∃ o target left, w.bitOp index op = .ok o ∧ w.address index = .ok target ∧
        w.address lhs = .ok left ∧
        match rhs with
        | none => lines = [.command (.bit o target left)]
        | some rhs => ∃ right, w.address rhs = .ok right ∧ lines = joined o target left right := by
  have hjoined : ∀ o target left right, (if target = left then command (.bit o target right)
      else if target = right then command (.bit o target left)
      else do
        command (.moveBit target left)
        command (.bit o target right)).Writes lines u ↔ lines = joined o target left right := by
    intro o target left right
    unfold joined
    by_cases hleft : target = left
    · rw [if_pos hleft, if_pos hleft]
      exact writes_command
    · rw [if_neg hleft, if_neg hleft]
      by_cases hright : target = right
      · rw [if_pos hright, if_pos hright]
        exact writes_command
      · rw [if_neg hright, if_neg hright]
        simp
  cases rhs with
  | none =>
      simp only [mathBit, writes_silent_bind, writes_command]
      constructor
      · rintro ⟨o, ho, target, htarget, left, hleft, h⟩
        exact ⟨o, target, left, ho, htarget, hleft, h⟩
      · rintro ⟨o, target, left, ho, htarget, hleft, h⟩
        exact ⟨o, ho, target, htarget, left, hleft, h⟩
  | some rhs =>
      simp only [mathBit, writes_silent_bind, hjoined]
      constructor
      · rintro ⟨o, ho, target, htarget, left, hleft, h⟩
        exact ⟨o, target, left, ho, htarget, hleft, h⟩
      · rintro ⟨o, target, left, ho, htarget, hleft, h⟩
        exact ⟨o, ho, target, htarget, left, hleft, h⟩

/-- Whether an instruction is a truth literal, and which. -/
def truthLiteral? : Instruction → Option Bool
  | .bool value => some value
  | _ => none

/-- **An assignment to a truth variable.** -/
theorem assignBit_writes {op : Option MathOp} {target value : Nat} :
    (w.assignBit index op target value).Writes lines u ↔
      ∃ place source, w.address target = .ok place ∧ w.function.body[value]? = some source ∧
        match op, truthLiteral? source.instruction with
        | none, some literal => lines = [.command (.setBit place literal)]
        | none, none => ∃ address, w.address value = .ok address ∧ lines = copied .bit place address
        | some op, _ => ∃ o address, w.bitOp index op = .ok o ∧ w.address value = .ok address ∧
            lines = [.command (.bit o place address)] := by
  unfold assignBit
  simp only [writes_silent_bind, op_eq_ok]
  constructor
  · rintro ⟨place, hplace, source, hsource, h⟩
    refine ⟨place, source, hplace, hsource, ?_⟩
    cases op with
    | none =>
        cases hinstr : source.instruction with
        | bool b => simpa [hinstr, truthLiteral?] using h
        | _ => simpa [hinstr, truthLiteral?] using h
    | some op => simpa using h
  · rintro ⟨place, source, hplace, hsource, h⟩
    refine ⟨place, hplace, source, hsource, ?_⟩
    cases op with
    | none =>
        cases hinstr : source.instruction with
        | bool b => simpa [hinstr, truthLiteral?] using h
        | _ => simpa [hinstr, truthLiteral?] using h
    | some op => simpa using h

/-- The places that a word can be assigned to. -/
inductive Place where
  | register
  | memory
  | port
  deriving DecidableEq

/-- The place that an instruction names. -/
def place? : Instruction → Option Place
  | .register _ => some .register
  | .address _ _ => some .memory
  | .portOut _ => some .port
  | _ => none

/-- The lines that assign a word to a place; `address` is the register, the register
that holds the address, or the port. -/
def assigned (place : Place) (address : Nat) (op : Option WordOp) (source : Source) : List Line :=
  match place, op with
  | .register, none => [.command (.move address source)]
  | .register, some op => [.command (.word op address source)]
  | .memory, none => placed source (.store address)
  | .memory, some op => [.command (.load .ram scratch address), .command (.word op scratch source),
      .command (.store address scratch)]
  | .port, none => placed source (.output address)
  | .port, some op => [.command (.input scratch address), .command (.word op scratch source),
      .command (.output address scratch)]

/-- **An assignment of a word.** -/
theorem assignWord_writes {op : Option MathOp} {target value : Nat} :
    (w.assignWord index op target value).Writes lines u ↔
      ∃ o source op' place address, op.mapM (w.wordOp index) = .ok o ∧
        w.operand value = .ok source ∧ w.function.body[target]? = some op' ∧
        place? op'.instruction = some place ∧ w.address target = .ok address ∧
        lines = assigned place address o source := by
  unfold assignWord
  simp only [writes_silent_bind, op_eq_ok]
  constructor
  · rintro ⟨o, ho, source, hsource, op', hop', h⟩
    cases hinstr : op'.instruction with
    | register | address | portOut =>
        simp only [hinstr, writes_silent_bind] at h
        obtain ⟨address, haddress, h⟩ := h
        refine ⟨o, source, op', _, address, ho, hsource, hop', by rw [hinstr]; rfl, haddress, ?_⟩
        cases o with
        | none => simpa [assigned] using h
        | some o => simpa [assigned] using h
    | _ => simp [hinstr] at h
  · rintro ⟨o, source, op', place, address, ho, hsource, hop', hplace, haddress, rfl⟩
    refine ⟨o, ho, source, hsource, op', hop', ?_⟩
    cases hinstr : op'.instruction with
    | register | address | portOut =>
        rw [hinstr] at hplace
        cases hplace
        simp only [writes_silent_bind]
        refine ⟨address, haddress, ?_⟩
        cases o with
        | none => simp [assigned]
        | some o => simp [assigned]
    | _ =>
        rw [hinstr] at hplace
        cases hplace

/-- The base of an array, as it is added to an index. -/
def baseOf (instruction : Instruction) (base : Nat) : Source :=
  match instruction with
  | .register _ => .cell base
  | _ => .immediate base

/-- **The address of an array element.** -/
theorem elementAddress_writes {array element : Nat} :
    (w.elementAddress index array element).Writes lines u ↔
      ∃ target source op' base, w.address index = .ok target ∧ w.operand element = .ok source ∧
        w.function.body[array]? = some op' ∧ w.address array = .ok base ∧
        lines = [.command (.move target source),
          .command (.word .add target (baseOf op'.instruction base))] := by
  unfold elementAddress
  simp only [writes_silent_bind, writes_command_bind, op_eq_ok]
  constructor
  · rintro ⟨target, htarget, source, hsource, rest, ⟨op', hop', base, hbase, h⟩, rfl⟩
    refine ⟨target, source, op', base, htarget, hsource, hop', hbase, ?_⟩
    cases hinstr : op'.instruction with
    | register => simpa [hinstr, baseOf] using h
    | _ => simpa [hinstr, baseOf] using h
  · rintro ⟨target, source, op', base, htarget, hsource, hop', hbase, rfl⟩
    refine ⟨target, htarget, source, hsource, _, ⟨op', hop', base, hbase, ?_⟩, rfl⟩
    cases hinstr : op'.instruction with
    | register => simp [baseOf]
    | _ => simp [baseOf]

/-- The line that puts a literal into the cell of its op, if that has one. -/
def loaded (op : Op) (put : Nat → Command) : List Line :=
  (op.offset.absolute?.map (Line.command ∘ put)).toList

/-- **The lines of an op**, by its instruction.  A constant is loaded only if it has a cell, and
what was taken out or stands for a variable writes nothing. -/
theorem opLines_writes {op : Op} : (w.opLines index op).Writes lines u ↔
    match op.instruction with
    | .removed | .register _ | .bit _ | .ram _ | .rom _ | .portOut _ => lines = []
    | .marker name => lines = [.label name]
    | .int value => lines = loaded op (.move · (.immediate value.toInt))
    | .bool value => lines = loaded op (.setBit · value)
    | .portIn var => ∃ port, w.port index var = .ok port ∧
        ∃ address, w.address index = .ok address ∧ lines = [.command (.input address port)]
    | .jump target => lines = [.command (.jump target.marker)]
    | .branch expected condition target => (w.branch expected condition target).Writes lines u
    | .compare op width lhs rhs => (w.compare index op width lhs rhs).Writes lines u
    | .math op .word lhs rhs => (w.mathWord index op lhs rhs).Writes lines u
    | .math op .bit lhs rhs => (w.mathBit index op lhs rhs).Writes lines u
    | .assign op .word target value => ∃ first,
        (w.assignWord index op target value).Writes first u ∧ lines = first ++ [.blank]
    | .assign op .bit target value => ∃ first,
        (w.assignBit index op target value).Writes first u ∧ lines = first ++ [.blank]
    | .element space array element => ∃ address, w.address index = .ok address ∧
        ∃ first, (w.elementAddress index array element).Writes first u ∧
          lines = first ++ [.command (.load space address address)]
    | .address array element => (w.elementAddress index array element).Writes lines u
    | .call function none => lines = [.command (.call function)]
    | .call function (some width) => ∃ address, w.address index = .ok address ∧
        ∃ slot, w.slot index function Storage.resultName = .ok slot ∧
          lines = .command (.call function) :: copied width address slot
    | .parameter function name value => ∃ slot, w.slot index function name = .ok slot ∧
        (w.pass slot value).Writes lines u
    | .ret none => lines = [.command (.ret w.function.isr), .blank]
    | .ret (some value) => ∃ slot, w.slot index w.function.label Storage.resultName = .ok slot ∧
        ∃ first, (w.pass slot value).Writes first u ∧
          lines = first ++ [.command (.ret w.function.isr), .blank]
    | .timer value => ∃ source, w.operand value = .ok source ∧ lines = [.command (.timer source)]
    | .level level => lines = [.command (.level level)]
    | .halt => lines = [.command .halt]
    | .pause => lines = [.command .pause]
    | .reset => lines = [.command .reset]
    | .restart => lines = [.command .restart]
    | .nop => lines = [.command .nop] := by
  unfold opLines
  cases op.instruction with
  | int value =>
      unfold loaded
      cases op.offset.absolute? with
      | none => simp
      | some address => simp
  | bool value =>
      unfold loaded
      cases op.offset.absolute? with
      | none => simp
      | some address => simp
  | math o width lhs rhs =>
      cases width with
      | word => rfl
      | bit => rfl
  | assign o width target value =>
      cases width with
      | word => simp [writes_then u]
      | bit => simp [writes_then u]
  | element space array element => simp [writes_then u]
  | call function result =>
      cases result with
      | none => simp
      | some width =>
          simp only [writes_command_bind, writes_silent_bind, copy_writes]
          constructor
          · rintro ⟨rest, ⟨address, haddress, slot, hslot, rfl⟩, rfl⟩
            exact ⟨address, haddress, slot, hslot, rfl⟩
          · rintro ⟨address, haddress, slot, hslot, rfl⟩
            exact ⟨_, ⟨address, haddress, slot, hslot, rfl⟩, rfl⟩
  | ret value =>
      cases value with
      | none => simp
      | some value => simp [writes_then u]
  | _ => simp

/-- The copy of a truth value from a bit to the same bit takes no command. -/
theorem copy_blank {source target address : Nat} {op copy place : Op}
    (hop : w.function.body[source]? = some op) (htruth : truthLiteral? op.instruction = none)
    (hat : op.offset = .absolute address)
    (hcopy : copy.instruction = .assign none .bit target source)
    (hplace : w.function.body[target]? = some place) (hplaced : place.offset = .absolute address) :
    (w.opLines index copy).Writes [.blank] () := by
  rw [opLines_writes, hcopy]
  refine ⟨[], assignBit_writes.mpr
    ⟨address, op, address_eq_ok.mpr ⟨place, hplace, hplaced⟩, hop, ?_⟩, rfl⟩
  rw [htruth]
  refine ⟨address, address_eq_ok.mpr ⟨op, hop, hat⟩, ?_⟩
  simp [copied]

/-- The lines of ops from an index on, one op after the other. -/
def written (w : Writing) (index : Nat) (ops : List Op) : List Line :=
  (ops.zipIdx index).flatMap fun p => (w.opLines p.2 p.1).lines

/-- The lines of ops with other ops behind them. -/
theorem written_append (w : Writing) (index : Nat) (xs ys : List Op) :
    w.written index (xs ++ ys) = w.written index xs ++ w.written (index + xs.length) ys := by
  unfold written
  rw [List.zipIdx_append, List.flatMap_append, Nat.add_comm]

/-- A line of ops is a line of one of them. -/
theorem mem_written {ops : List Op} {l : Line} :
    l ∈ w.written index ops ↔
      ∃ (n : Nat) (op : Op), ops[n]? = some op ∧ l ∈ (w.opLines (index + n) op).lines := by
  unfold written
  rw [List.mem_flatMap]
  constructor
  · rintro ⟨⟨op, i⟩, hmem, hl⟩
    obtain ⟨hle, hop⟩ := List.mk_mem_zipIdx_iff_le_and_getElem?_sub.mp hmem
    refine ⟨i - index, op, hop, ?_⟩
    rwa [Nat.add_sub_cancel' hle]
  · rintro ⟨n, op, hop, hl⟩
    refine ⟨(op, index + n), List.mk_mem_zipIdx_iff_le_and_getElem?_sub.mpr ⟨by omega, ?_⟩, hl⟩
    rwa [Nat.add_sub_cancel_left]

theorem infix_written {ops : List Op} {n : Nat} {op : Op} (h : ops[n]? = some op) :
    (w.opLines (index + n) op).lines <:+: w.written index ops := by
  have hmem : (op, index + n) ∈ ops.zipIdx index :=
    List.mk_mem_zipIdx_iff_le_and_getElem?_sub.mpr ⟨by omega, by rwa [Nat.add_sub_cancel_left]⟩
  exact List.infix_of_mem_flatten (List.mem_map_of_mem hmem)

/-- **The lines of a body are those of its ops**, if all of them end well. -/
theorem bodyLines_writes {ops : List Op} : (w.bodyLines index ops).Writes lines u ↔
    (∀ (n : Nat) op, ops[n]? = some op → (w.opLines (index + n) op).outcome = .ok ()) ∧
      lines = w.written index ops := by
  induction ops generalizing index lines with
  | nil => simp [bodyLines, written]
  | cons op rest ih =>
      rw [bodyLines, writes_bind]
      constructor
      · rintro ⟨first, _, others, hfirst, hothers, rfl⟩
        obtain ⟨hall, rfl⟩ := ih.mp hothers
        refine ⟨fun n op' hop' => ?_, ?_⟩
        · cases n with
          | zero =>
              cases hop'
              exact hfirst.outcome_eq
          | succ n =>
              have hrest := hall n op' hop'
              rwa [show index + (n + 1) = index + 1 + n by omega]
        · rw [← hfirst.lines_eq]
          rfl
      · rintro ⟨hall, rfl⟩
        refine ⟨_, (), _, writes_of_outcome (hall 0 op rfl), ih.mpr ⟨fun n op' hop' => ?_, rfl⟩, rfl⟩
        have hrest := hall (n + 1) op' hop'
        rwa [show index + 1 + n = index + (n + 1) by omega]

end Writing

open Emission (writes_silent_bind writes_ofLines_bind writes_bind writes_silent)

/-- The section of a function: a heading with its label, and the lines of its ops. A label that is
not found has no section. -/
def sectionLines (p : Flat.Program) (addresses : Table Nat) (label : String) : List Line :=
  match p.find? label with
  | none => []
  | some function =>
    headingLines label ++ Writing.written { program := p, addresses, function } 0 function.body

/-- The function stands in the program, and the lines of all its ops can be written. -/
def Writable (p : Flat.Program) (addresses : Table Nat) (label : String) : Prop :=
  ∃ function, p.find? label = some function ∧ ∀ (n : Nat) op, function.body[n]? = some op →
    (Writing.opLines { program := p, addresses, function } n op).outcome = .ok ()

/-- **The sections are written one after the other.** -/
theorem sections_writes {p : Flat.Program} {addresses : Table Nat} {labels : List String}
    {lines : List Line} {u : Unit} : (sections p addresses labels).Writes lines u ↔
      (∀ label ∈ labels, Writable p addresses label) ∧
        lines = labels.flatMap (sectionLines p addresses) := by
  induction labels generalizing lines with
  | nil => simp [sections]
  | cons label rest ih =>
      rw [sections, List.forall_mem_cons, List.flatMap_cons]
      cases hfind : p.find? label with
      | none =>
          have hnot : ¬Writable p addresses label := by
            rintro ⟨f, hf, _⟩
            rw [hfind] at hf
            cases hf
          simp [hnot]
      | some f =>
          have hwritable : Writable p addresses label ↔ ∀ (n : Nat) op, f.body[n]? = some op →
              (Writing.opLines { program := p, addresses, function := f } n op).outcome = .ok () := by
            constructor
            · rintro ⟨f', hf', hall⟩
              rw [hfind] at hf'
              cases hf'
              exact hall
            · exact fun hall => ⟨f, hfind, hall⟩
          have hsection : sectionLines p addresses label = headingLines label ++
              Writing.written { program := p, addresses, function := f } 0 f.body := by
            rw [sectionLines, hfind]
          rw [hsection, hwritable, writes_ofLines_bind]
          constructor
          · rintro ⟨others, hothers, rfl⟩
            obtain ⟨body, _, last, hbody, hlast, rfl⟩ := writes_bind.mp hothers
            obtain ⟨hall, rfl⟩ := Writing.bodyLines_writes.mp hbody
            obtain ⟨hrest, rfl⟩ := ih.mp hlast
            refine ⟨⟨fun n op hop => ?_, hrest⟩, (List.append_assoc ..).symm⟩
            have hop := hall n op hop
            rwa [Nat.zero_add] at hop
          · rintro ⟨⟨hall, hrest⟩, rfl⟩
            refine ⟨_, writes_bind.mpr ⟨_, (), _, Writing.bodyLines_writes.mpr ⟨?_, rfl⟩,
              ih.mpr ⟨hrest, rfl⟩, rfl⟩, List.append_assoc ..⟩
            intro n op hop
            rw [Nat.zero_add]
            exact hall n op hop

/-- What stands before the sections: the widths, the constants and the vectors. -/
def preludeLines (model : Model.Program) : List Line :=
  .config model.config :: constantLines model ++ vectorLines model

/-- **The output of a compilation** is the prelude and a section for each function of the
layout. -/
theorem compile_writes {model : Model.Program} {lines : List Line} {u : Unit} :
    (compile model).Writes lines u ↔ ∃ c, build model = .ok c ∧
      (∀ label ∈ c.layout.order, Writable c.program c.layout.addresses label) ∧
      lines = preludeLines model ++
        c.layout.order.flatMap (sectionLines c.program c.layout.addresses) := by
  refine writes_silent_bind.trans (exists_congr fun c => and_congr_right fun _ => ?_)
  unfold Compilation.emit emit
  rw [show Emission.line (.config model.config) = Emission.ofLines [.config model.config] from rfl]
  simp only [writes_ofLines_bind, sections_writes]
  constructor
  · rintro ⟨_, ⟨_, ⟨_, ⟨hall, rfl⟩, rfl⟩, rfl⟩, rfl⟩
    exact ⟨hall, by simp [preludeLines]⟩
  · rintro ⟨hall, rfl⟩
    exact ⟨_, ⟨_, ⟨_, ⟨hall, rfl⟩, rfl⟩, rfl⟩, by simp [preludeLines]⟩

/-- A section stands together in the output. -/
theorem infix_compile {model : Model.Program} {c : Compilation} {label : String}
    (hok : (compile model).outcome = .ok ()) (hbuild : build model = .ok c)
    (h : label ∈ c.layout.order) :
    sectionLines c.program c.layout.addresses label <:+: (compile model).lines := by
  obtain ⟨c', hbuild', _, hlines⟩ := compile_writes.mp (Emission.writes_of_outcome hok)
  obtain rfl : c' = c := Except.ok.inj (hbuild'.symm.trans hbuild)
  have hsection : sectionLines c'.program c'.layout.addresses label <:+:
      c'.layout.order.flatMap (sectionLines c'.program c'.layout.addresses) :=
    List.infix_of_mem_flatten (List.mem_map_of_mem h)
  rw [hlines]
  exact hsection.trans (List.suffix_append _ _).isInfix

end Stackless.Assembly
