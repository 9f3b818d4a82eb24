import Stackless.Proofs.Emissions
import Stackless.Proofs.SlotLives

/-!
# The cells that lines write

A **cell** is an address of the register file or of the bit file.  A command writes at
most one cell, and which one it says itself.  What the lines of an op write is one of
four things (`Wrote`): the place of its value, the variable that it assigns to, the slot
that it passes a value to, or a scratch cell that it borrows.

An op borrows scratch when the processor has no command for it: a store or an output
takes its word from a register and cannot combine, a comparison has a register on its
left, and a jump tests a bit only through another bit (`Writing.borrowed?`).
-/

namespace Stackless.Assembly

open Flat (Op Instruction Offset File Width)

/-- The cell that a command writes. -/
def Command.writes? : Command → Option (File × Nat)
  | .move target _ | .word _ target _ | .input target _ | .load _ target _ => some (.register, target)
  | .moveBit target _ | .bit _ target _ | .setBit target _ | .test _ target => some (.bit, target)
  | _ => none

/-- The cell that a line writes. -/
def Line.writes? : Line → Option (File × Nat)
  | .command c => c.writes?
  | _ => none

/-- The cells that lines write, in order. -/
def cellsWritten (lines : List Line) : List (File × Nat) :=
  lines.filterMap Line.writes?

@[simp]
theorem cellsWritten_nil : cellsWritten [] = [] :=
  rfl

@[simp]
theorem cellsWritten_append (xs ys : List Line) :
    cellsWritten (xs ++ ys) = cellsWritten xs ++ cellsWritten ys :=
  List.filterMap_append

theorem cellsWritten_blank : cellsWritten [.blank] = [] :=
  rfl

theorem cellsWritten_cons_none {l : Line} (h : l.writes? = none) (lines : List Line) :
    cellsWritten (l :: lines) = cellsWritten lines :=
  List.filterMap_cons_none h

theorem cellsWritten_cons_some {l : Line} {cell : File × Nat} (h : l.writes? = some cell)
    (lines : List Line) : cellsWritten (l :: lines) = cell :: cellsWritten lines :=
  List.filterMap_cons_some h

namespace Writing

open Model (MathOp CompareOp)
open Emission

variable {w : Writing} {index : Nat} {lines : List Line} {u : Unit} {cell : File × Nat}

/-- The cell of the value that the op at an index computes. -/
def own? (w : Writing) (index : Nat) : Option (File × Nat) :=
  match w.function.body[index]? with
  | some op =>
    match op.instruction.resultFile?, op.offset with
    | some file, .absolute address => some (file, address)
    | _, _ => none
  | none => none

/-- The op at an index has its value in a cell of its own. -/
theorem own?_eq_some {op : Op} (hop : w.function.body[index]? = some op) :
    w.own? index = some cell ↔
      op.instruction.resultFile? = some cell.1 ∧ op.offset = .absolute cell.2 := by
  obtain ⟨file, address⟩ := cell
  simp only [own?, hop]
  constructor
  · intro h
    split at h
    · rename_i hfile hoffset
      cases h
      exact ⟨hfile, hoffset⟩
    · cases h
  · rintro ⟨hfile, hoffset⟩
    simp only [hfile, hoffset]

/-- Whether the value of an op is written into the command that uses it. -/
def immediate (w : Writing) (index : Nat) : Bool :=
  match w.operand index with
  | .ok (.immediate _) => true
  | _ => false

/-- The scratch cell that an op borrows: the bit for a branch on what is no comparison, and the
register where a command wants a word in one that is a literal or stands for a place. -/
def borrowed? (w : Writing) (op : Op) : Option (File × Nat) :=
  match op.instruction with
  | .branch _ condition _ =>
    match (w.function.body[condition]?).bind fun test => flag? test.instruction with
    | some _ => none
    | none => some (.bit, truth)
  | .compare _ .word lhs _ => if w.immediate lhs then some (.register, scratch) else none
  | .assign change .word target value =>
    match (w.function.body[target]?).bind fun place => place? place.instruction with
    | some .memory | some .port =>
      if change.isSome || w.immediate value then some (.register, scratch) else none
    | _ => none
  | _ => none

/-- What the lines of an op write. Each case is a cell that the op has a claim to, and there are no
others. -/
inductive Wrote (w : Writing) (op : Op) : File × Nat → Prop
  /-- The place of its value. -/
  | value {file : File} {address : Nat} :
      op.instruction.resultFile? = some file → op.offset = .absolute address →
      Wrote w op (file, address)
  /-- The variable that it assigns to. -/
  | assigned {change : Option MathOp} {width : Width} {target value address : Nat} {place : Op} :
      op.instruction = .assign change width target value →
      w.function.body[target]? = some place → place.offset = .absolute address →
      (width = .word → place? place.instruction = some .register) → Wrote w op (width.file, address)
  /-- The slot of a parameter. -/
  | passed {function name : String} {value index slot : Nat} {file : File} :
      op.instruction = .parameter function name value → w.slot index function name = .ok slot →
      Wrote w op (file, slot)
  /-- The slot of the result. -/
  | returned {value index slot : Nat} {file : File} :
      op.instruction = .ret (some value) →
      w.slot index w.function.label Storage.resultName = .ok slot → Wrote w op (file, slot)
  /-- A scratch cell. -/
  | borrowed {cell : File × Nat} : w.borrowed? op = some cell → Wrote w op cell

/-- An offset with an address is absolute. -/
theorem absolute_of_absolute? {offset : Offset} {address : Nat}
    (h : offset.absolute? = some address) : offset = .absolute address := by
  cases offset with
  | absolute address' =>
      cases h
      rfl
  | _ => cases h

theorem mem_copied {width : Width} {target source : Nat}
    (h : cell ∈ cellsWritten (copied width target source)) : cell = (width.file, target) := by
  cases width with
  | word => exact List.mem_singleton.mp h
  | bit =>
      by_cases hsame : target = source
      · simp [copied, hsame] at h
      · simp only [copied, hsame, if_false] at h
        exact List.mem_singleton.mp h

theorem mem_placed {source : Source} {use : Nat → Command}
    (huse : ∀ address, (use address).writes? = none)
    (h : cell ∈ cellsWritten (placed source use)) :
    (∃ value, source = .immediate value) ∧ cell = (.register, scratch) := by
  have hline : ∀ address, (Line.command (use address)).writes? = none := huse
  cases source with
  | cell address =>
      rw [placed, cellsWritten_cons_none (hline address)] at h
      cases h
  | immediate value =>
      refine ⟨⟨value, rfl⟩, ?_⟩
      rw [placed, cellsWritten_cons_some rfl, cellsWritten_cons_none (hline scratch)] at h
      exact List.mem_singleton.mp h

theorem mem_loaded {op : Op} {put : Nat → Command} (h : cell ∈ cellsWritten (loaded op put)) :
    ∃ address, op.offset = .absolute address ∧ cell ∈ cellsWritten [.command (put address)] := by
  unfold loaded at h
  cases haddress : op.offset.absolute? with
  | none =>
      rw [haddress] at h
      cases h
  | some address =>
      rw [haddress] at h
      exact ⟨address, absolute_of_absolute? haddress, h⟩

theorem mem_passed {slot : Nat} {op : Op} (hpassed : passed? slot op = some lines)
    (h : cell ∈ cellsWritten lines) : cell.2 = slot := by
  unfold passed? at hpassed
  split at hpassed
  all_goals cases hpassed
  · rw [List.mem_singleton.mp h]
  · rw [List.mem_singleton.mp h]
  · rw [mem_copied h]
  · rw [List.mem_singleton.mp h]
  · rw [List.mem_singleton.mp h]

theorem mem_kept {op : CompareOp} {self : Op} (h : cell ∈ cellsWritten (kept op self)) :
    ∃ address, self.offset = .absolute address ∧ cell = (.bit, address) := by
  unfold kept at h
  split at h
  · rename_i address haddress
    exact ⟨address, absolute_of_absolute? haddress, List.mem_singleton.mp h⟩
  · cases h

theorem mem_reckoned {op : WordOp} {target : Nat} {left right : Source}
    (h : cell ∈ cellsWritten (reckoned op target left right)) : cell = (.register, target) := by
  unfold reckoned at h
  split at h
  · exact List.mem_singleton.mp h
  · rcases List.mem_cons.mp h with h | h
    · exact h
    · exact List.mem_singleton.mp h

theorem mem_joined {op : BitOp} {target left right : Nat}
    (h : cell ∈ cellsWritten (joined op target left right)) : cell = (.bit, target) := by
  unfold joined at h
  split at h
  · exact List.mem_singleton.mp h
  · split at h
    · exact List.mem_singleton.mp h
    · rcases List.mem_cons.mp h with h | h
      · exact h
      · exact List.mem_singleton.mp h

/-- An assignment of a word writes its variable, or borrows scratch. -/
theorem mem_assigned {place : Place} {address : Nat} {op : Option WordOp} {source : Source}
    (h : cell ∈ cellsWritten (assigned place address op source)) :
    (place = .register ∧ cell = (.register, address)) ∨
      (place ≠ .register ∧ (op.isSome = true ∨ ∃ value, source = .immediate value) ∧
        cell = (.register, scratch)) := by
  cases op with
  | none =>
      cases place with
      | register => exact .inl ⟨rfl, List.mem_singleton.mp h⟩
      | memory | port =>
          obtain ⟨himmediate, rfl⟩ := mem_placed (fun _ => rfl) h
          exact .inr ⟨nofun, .inr himmediate, rfl⟩
  | some op =>
      cases place with
      | register => exact .inl ⟨rfl, List.mem_singleton.mp h⟩
      | memory | port =>
          refine .inr ⟨nofun, .inl rfl, ?_⟩
          rcases List.mem_cons.mp h with h | h
          · exact h
          · exact List.mem_singleton.mp h

/-- The address of the op at hand is its offset. -/
theorem offset_of_address {op : Op} {address : Nat} (hop : w.function.body[index]? = some op)
    (h : w.address index = .ok address) : op.offset = .absolute address := by
  obtain ⟨op', hop', hoffset⟩ := address_eq_ok.mp h
  rw [hop] at hop'
  cases hop'
  exact hoffset

/-- The cell of its own that an address means. -/
theorem own?_of_address {op : Op} {file : File} {address : Nat}
    (hop : w.function.body[index]? = some op) (hfile : op.instruction.resultFile? = some file)
    (h : w.address index = .ok address) : w.own? index = some (file, address) :=
  (own?_eq_some hop).mpr ⟨hfile, offset_of_address hop h⟩

/-- A value that is passed goes to the slot. -/
theorem snd_of_pass {slot value : Nat} (h : (w.pass slot value).Writes lines u)
    (hcell : cell ∈ cellsWritten lines) : cell = (cell.1, slot) := by
  obtain ⟨source, _, hpassed⟩ := pass_writes.mp h
  exact Prod.ext rfl (mem_passed hpassed hcell)

/-- A conditional jump writes nothing, or the bit that receives truth tests. -/
theorem wrote_branch {op : Op} {expected : Bool} {condition : Nat} {target : Flat.Target}
    (hinstr : op.instruction = .branch expected condition target)
    (h : (w.branch expected condition target).Writes lines u) (hcell : cell ∈ cellsWritten lines) :
    Wrote w op cell := by
  obtain ⟨test, htest, h⟩ := branch_writes.mp h
  cases hflag : flag? test.instruction with
  | some comparison =>
      rw [hflag] at h
      subst h
      cases hcell
  | none =>
      rw [hflag] at h
      obtain ⟨address, _, rfl⟩ := h
      rw [List.mem_singleton.mp hcell]
      refine .borrowed ?_
      rw [borrowed?, hinstr]
      simp only [htest, Option.bind_some, hflag]

/-- A comparison writes its bit, and borrows scratch for a word on its left. -/
theorem wrote_compare {op : Op} {test : CompareOp} {width : Width} {lhs rhs : Nat}
    (hop : w.function.body[index]? = some op)
    (hinstr : op.instruction = .compare test width lhs rhs)
    (h : (w.compare index test width lhs rhs).Writes lines u) (hcell : cell ∈ cellsWritten lines) :
    Wrote w op cell := by
  obtain ⟨self, hself, h⟩ := compare_writes.mp h
  rw [hop] at hself
  cases hself
  have hkept : cell ∈ cellsWritten (kept test op) → Wrote w op cell := by
    intro hkept
    obtain ⟨address, hoffset, rfl⟩ := mem_kept hkept
    exact .value (by rw [hinstr]; rfl) hoffset
  cases width with
  | word =>
      obtain ⟨left, right, hleft, _, rfl⟩ := h
      rw [cellsWritten_append] at hcell
      rcases List.mem_append.mp hcell with hcell | hcell
      · obtain ⟨⟨value, rfl⟩, rfl⟩ := mem_placed (fun _ => rfl) hcell
        refine .borrowed ?_
        rw [borrowed?, hinstr]
        simp only [immediate, hleft, if_true]
      · exact hkept hcell
  | bit =>
      obtain ⟨left, right, _, _, rfl⟩ := h
      exact hkept hcell

/-- An operation writes the place of its value. -/
theorem wrote_math {op : Op} {o : MathOp} {width : Width} {lhs : Nat} {rhs : Option Nat}
    (hop : w.function.body[index]? = some op) (hinstr : op.instruction = .math o width lhs rhs)
    (h : (match width with
      | .word => w.mathWord index o lhs rhs
      | .bit => w.mathBit index o lhs rhs).Writes lines u)
    (hcell : cell ∈ cellsWritten lines) : Wrote w op cell := by
  have hvalue : ∀ target, w.address index = .ok target → cell = (width.file, target) →
      Wrote w op cell := by
    rintro target htarget rfl
    exact .value (by rw [hinstr]; rfl) (offset_of_address hop htarget)
  cases width with
  | word =>
      obtain ⟨_, target, left, right, _, htarget, _, _, rfl⟩ := mathWord_writes.mp h
      exact hvalue target htarget (mem_reckoned hcell)
  | bit =>
      obtain ⟨_, target, left, _, htarget, _, h⟩ := mathBit_writes.mp h
      cases rhs with
      | none =>
          subst h
          exact hvalue target htarget (List.mem_singleton.mp hcell)
      | some rhs =>
          obtain ⟨right, _, rfl⟩ := h
          exact hvalue target htarget (mem_joined hcell)

/-- An assignment of a word writes its variable, or borrows scratch on the way to the RAM
or to a port. -/
theorem wrote_assignWord {op : Op} {change : Option MathOp} {target value : Nat}
    (hinstr : op.instruction = .assign change .word target value)
    (h : (w.assignWord index change target value).Writes lines u)
    (hcell : cell ∈ cellsWritten lines) : Wrote w op cell := by
  obtain ⟨o, source, op', place, address, ho, hsource, hop', hplace, haddress, rfl⟩ :=
    assignWord_writes.mp h
  rcases mem_assigned hcell with ⟨rfl, rfl⟩ | ⟨hne, hneeds, rfl⟩
  · exact .assigned hinstr hop' (offset_of_address hop' haddress) fun _ => hplace
  · have hneeds : (change.isSome || w.immediate value) = true := by
      rw [Bool.or_eq_true]
      rcases hneeds with hsome | ⟨n, rfl⟩
      · refine .inl ?_
        cases change with
        | some _ => rfl
        | none =>
            cases ho
            cases hsome
      · refine .inr ?_
        rw [immediate, hsource]
    refine .borrowed ?_
    rw [borrowed?, hinstr]
    simp only [hop', Option.bind_some, hplace]
    cases place with
    | register => exact absurd rfl hne
    | memory | port => simp only [hneeds, if_true]

/-- An assignment of a truth value writes its variable. -/
theorem wrote_assignBit {op : Op} {change : Option MathOp} {target value : Nat}
    (hinstr : op.instruction = .assign change .bit target value)
    (h : (w.assignBit index change target value).Writes lines u)
    (hcell : cell ∈ cellsWritten lines) : Wrote w op cell := by
  obtain ⟨place, source, hplace, _, h⟩ := assignBit_writes.mp h
  obtain ⟨op', hop', hoffset⟩ := address_eq_ok.mp hplace
  have hassigned : cell = (.bit, place) → Wrote w op cell := by
    rintro rfl
    exact .assigned hinstr hop' hoffset nofun
  split at h
  · subst h
    exact hassigned (List.mem_singleton.mp hcell)
  · obtain ⟨address, _, rfl⟩ := h
    exact hassigned (mem_copied hcell)
  · obtain ⟨o, address, _, _, rfl⟩ := h
    exact hassigned (List.mem_singleton.mp hcell)

/-- The address of an element is computed in one register. -/
theorem mem_elementAddress {array element : Nat}
    (h : (w.elementAddress index array element).Writes lines u)
    (hcell : cell ∈ cellsWritten lines) :
    ∃ address, w.address index = .ok address ∧ cell = (.register, address) := by
  obtain ⟨target, source, op', base, htarget, _, _, _, rfl⟩ := elementAddress_writes.mp h
  refine ⟨target, htarget, ?_⟩
  rcases List.mem_cons.mp hcell with hcell | hcell
  · exact hcell
  · exact List.mem_singleton.mp hcell

/-- **What the lines of an op write.**  One case for each kind of instruction, from the lines that
`opLines_writes` says it has. -/
theorem wrote_of_opLines {op : Op} (hop : w.function.body[index]? = some op)
    (h : (w.opLines index op).Writes lines u) (hcell : cell ∈ cellsWritten lines) :
    Wrote w op cell := by
  have hvalue : ∀ {file : File} {address : Nat}, op.instruction.resultFile? = some file →
      w.address index = .ok address → cell = (file, address) → Wrote w op cell := by
    rintro file address hfile haddress rfl
    exact .value hfile (offset_of_address hop haddress)
  rw [opLines_writes] at h
  cases hinstr : op.instruction with
  | removed | register | bit | ram | rom | portOut | marker | jump | level | halt | pause | reset
  | restart | nop =>
      rw [hinstr] at h
      obtain rfl := h
      cases hcell
  | int | bool =>
      rw [hinstr] at h
      obtain rfl := h
      obtain ⟨address, hoffset, hcell⟩ := mem_loaded hcell
      rw [List.mem_singleton.mp hcell]
      exact .value (by rw [hinstr]; rfl) hoffset
  | portIn =>
      rw [hinstr] at h
      obtain ⟨port, _, address, haddress, rfl⟩ := h
      exact hvalue (by rw [hinstr]; rfl) haddress (List.mem_singleton.mp hcell)
  | branch =>
      rw [hinstr] at h
      exact wrote_branch hinstr h hcell
  | compare =>
      rw [hinstr] at h
      exact wrote_compare hop hinstr h hcell
  | math o width =>
      rw [hinstr] at h
      cases width with
      | word => exact wrote_math hop hinstr h hcell
      | bit => exact wrote_math hop hinstr h hcell
  | assign change width =>
      rw [hinstr] at h
      cases width with
      | word =>
          obtain ⟨first, hfirst, rfl⟩ := h
          rw [cellsWritten_append, cellsWritten_blank, List.append_nil] at hcell
          exact wrote_assignWord hinstr hfirst hcell
      | bit =>
          obtain ⟨first, hfirst, rfl⟩ := h
          rw [cellsWritten_append, cellsWritten_blank, List.append_nil] at hcell
          exact wrote_assignBit hinstr hfirst hcell
  | element =>
      rw [hinstr] at h
      obtain ⟨address, haddress, first, hfirst, rfl⟩ := h
      rw [cellsWritten_append] at hcell
      rcases List.mem_append.mp hcell with hcell | hcell
      · obtain ⟨_, haddress, hcell⟩ := mem_elementAddress hfirst hcell
        exact hvalue (by rw [hinstr]; rfl) haddress hcell
      · exact hvalue (by rw [hinstr]; rfl) haddress (List.mem_singleton.mp hcell)
  | address =>
      rw [hinstr] at h
      obtain ⟨_, haddress, hcell⟩ := mem_elementAddress h hcell
      exact hvalue (by rw [hinstr]; rfl) haddress hcell
  | call function result =>
      rw [hinstr] at h
      cases result with
      | none =>
          obtain rfl := h
          cases hcell
      | some width =>
          obtain ⟨address, haddress, slot, _, rfl⟩ := h
          rw [cellsWritten_cons_none rfl] at hcell
          exact hvalue (by rw [hinstr]; rfl) haddress (mem_copied hcell)
  | parameter =>
      rw [hinstr] at h
      obtain ⟨slot, hslot, h⟩ := h
      rw [snd_of_pass h hcell]
      exact .passed hinstr hslot
  | ret value =>
      rw [hinstr] at h
      cases value with
      | none =>
          obtain rfl := h
          cases hcell
      | some value =>
          obtain ⟨slot, hslot, first, hfirst, rfl⟩ := h
          rw [cellsWritten_append] at hcell
          rcases List.mem_append.mp hcell with hcell | hcell
          · rw [snd_of_pass hfirst hcell]
            exact .returned hinstr hslot
          · cases hcell
  | timer =>
      rw [hinstr] at h
      obtain ⟨source, _, rfl⟩ := h
      cases hcell

/-- **What an op borrows, its lines write.** -/
theorem mem_of_borrowed {op : Op} (h : (w.opLines index op).Writes lines u)
    (hborrowed : w.borrowed? op = some cell) : cell ∈ cellsWritten lines := by
  unfold borrowed? at hborrowed
  rw [opLines_writes] at h
  split at hborrowed
  · rename_i expected condition target hinstr
    rw [hinstr] at h
    obtain ⟨test, htest, h⟩ := branch_writes.mp h
    rw [htest, Option.bind_some] at hborrowed
    cases hflag : flag? test.instruction with
    | some comparison =>
        rw [hflag] at hborrowed
        cases hborrowed
    | none =>
        rw [hflag] at h hborrowed
        cases hborrowed
        obtain ⟨address, _, rfl⟩ := h
        exact List.mem_cons_self
  · rename_i test lhs rhs hinstr
    rw [hinstr] at h
    obtain ⟨self, _, left, right, hleft, _, rfl⟩ := compare_writes.mp h
    rw [immediate, hleft] at hborrowed
    cases left with
    | cell address => cases hborrowed
    | immediate value =>
        cases hborrowed
        exact List.mem_cons_self
  · rename_i change target value hinstr
    rw [hinstr] at h
    obtain ⟨first, hfirst, rfl⟩ := h
    obtain ⟨o, source, op', place, address, ho, hsource, hop', hplace, _, rfl⟩ :=
      assignWord_writes.mp hfirst
    rw [hop', Option.bind_some, hplace, immediate, hsource] at hborrowed
    rw [cellsWritten_append]
    refine List.mem_append_left _ ?_
    cases change with
    | some _ =>
        obtain ⟨o', _, ho⟩ := bind_eq_ok.mp ho
        cases ho
        cases place with
        | register => cases hborrowed
        | memory | port =>
            cases hborrowed
            exact List.mem_cons_self
    | none =>
        cases ho
        cases place with
        | register => cases hborrowed
        | memory | port =>
            cases source with
            | cell address' => cases hborrowed
            | immediate n =>
                cases hborrowed
                exact List.mem_cons_self
  · cases hborrowed

/-- What ops write, one of them writes. -/
theorem mem_cellsWritten_written {ops : List Op} :
    cell ∈ cellsWritten (w.written index ops) ↔
      ∃ (n : Nat) (op : Op), ops[n]? = some op ∧
        cell ∈ cellsWritten (w.opLines (index + n) op).lines := by
  unfold cellsWritten
  rw [List.mem_filterMap]
  constructor
  · rintro ⟨l, hl, hcell⟩
    obtain ⟨n, op, hop, hl⟩ := mem_written.mp hl
    exact ⟨n, op, hop, List.mem_filterMap.mpr ⟨l, hl, hcell⟩⟩
  · rintro ⟨n, op, hop, hcell⟩
    obtain ⟨l, hl, hcell⟩ := List.mem_filterMap.mp hcell
    exact ⟨l, mem_written.mpr ⟨n, op, hop, hl⟩, hcell⟩

end Writing

/-- A heading writes nothing, so a section writes what its ops write. -/
theorem mem_cellsWritten_section {p : Flat.Program} {addresses : Table Nat} {label : String}
    {function : Flat.Function} {cell : File × Nat} (h : p.find? label = some function) :
    cell ∈ cellsWritten (sectionLines p addresses label) ↔
      ∃ (n : Nat) (op : Op), function.body[n]? = some op ∧
        cell ∈ cellsWritten (Writing.opLines { program := p, addresses, function } n op).lines := by
  have hheading : cellsWritten (headingLines label) = [] := rfl
  rw [sectionLines, h]
  dsimp only
  rw [cellsWritten_append, hheading, List.nil_append, Writing.mem_cellsWritten_written]
  simp only [Nat.zero_add]

end Stackless.Assembly
