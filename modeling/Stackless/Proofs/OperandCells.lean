import Stackless.Proofs.TypedEmission

/-!
# The cells that the lines of an op name

The allocator gives cells to ops, and the emitter writes lines that name cells.  `Writing.cells`
lists, for one op, the cells that follow from the allocation: the op's own, those of its operands
and the slot that it passes a value to or takes one from, each in the file of its instruction, and
the scratch cell if one is borrowed.  If the operands are of the kinds that the op works on, the
lines name these cells, all of them, and no others (`names_of_writes`).

There is one exception.  A truth value that already is in the bit to which it is to go is not
copied, and no line names that bit (`Names.idle`).
-/

namespace Stackless

open Flat (Op Instruction Offset File Width Var Gives Suits Context codeOf)
open Model (MathOp CompareOp)
open Assembly

namespace Flat

/-- Whether an instruction does nothing but move a value from one place to another. -/
def Instruction.isCopy : Instruction → Bool
  | .assign none .bit _ _ | .parameter _ _ _ | .ret (some _) | .call _ (some _) => true
  | _ => false

/-- The cell in which the users of an op see it. The address of an array is no cell, and neither is
a port, although both have addresses. -/
def Op.cell? (op : Op) : Option (File × Nat) :=
  match op.offset, op.instruction with
  | _, .ram _ | _, .rom _ | _, .portOut _ => none
  | .absolute address, x => some ((widthOf x).file, address)
  | _, _ => none

theorem Op.cell?_of_isTable {op : Op} (h : op.instruction.isTable = true) : op.cell? = none := by
  obtain ⟨instruction, offset, last, position⟩ := op
  cases instruction with
  | ram | rom => rfl
  | _ => cases h

theorem Op.cell?_of_unplaced {op : Op} (h : op.offset.absolute? = none) : op.cell? = none := by
  obtain ⟨instruction, offset, last, position⟩ := op
  cases offset with
  | absolute address => cases h
  | _ => cases instruction <;> rfl

theorem Op.cell?_of_absolute {op : Op} {address : Nat} (h : op.offset = .absolute address)
    (htable : op.instruction.isTable = false) (hport : ∀ var, op.instruction ≠ .portOut var) :
    op.cell? = some ((widthOf op.instruction).file, address) := by
  obtain ⟨instruction, offset, last, position⟩ := op
  cases h
  cases instruction with
  | ram | rom => cases htable
  | portOut var => exact absurd rfl (hport var)
  | _ => rfl

/-- A value that has an address is in a cell of its kind. -/
theorem Op.cell?_of_kind? {op : Op} {kind : Width} {address : Nat}
    (hkind : op.instruction.kind? = some kind) (htable : op.instruction.isTable = false)
    (h : op.offset = .absolute address) : op.cell? = some (kind.file, address) := by
  rw [← widthOf_eq_of_kind? hkind]
  refine Op.cell?_of_absolute h htable fun var hport => ?_
  rw [hport] at hkind
  cases hkind

end Flat

namespace Assembly

/-- The cells that lines name. -/
def cellsNamed (lines : List Line) : List (File × Nat) :=
  lines.flatMap Line.cells

/-- The scratch register, for an immediate word that is needed in a register. -/
def Source.borrows : Source → List (File × Nat)
  | .cell _ => []
  | .immediate _ => [(.register, scratch)]

section Named

variable {xs ys : List Line} {l : Line} {cell : File × Nat}

@[simp]
theorem cellsNamed_nil : cellsNamed [] = [] :=
  rfl

@[simp]
theorem cellsNamed_cons : cellsNamed (l :: xs) = l.cells ++ cellsNamed xs :=
  List.flatMap_cons

@[simp]
theorem cellsNamed_append : cellsNamed (xs ++ ys) = cellsNamed xs ++ cellsNamed ys :=
  List.flatMap_append

theorem mem_named_copied {width : Width} {target source : Nat} (h : width = .bit → target ≠ source) :
    cell ∈ cellsNamed (Writing.copied width target source) ↔
      cell = (width.file, target) ∨ cell = (width.file, source) := by
  cases width with
  | word => simp [Writing.copied, Line.cells, Command.cells, Source.cells, Width.file]
  | bit =>
      rw [Writing.copied, if_neg (h rfl)]
      simp [Line.cells, Command.cells, Width.file]

theorem mem_named_placed {source : Source} {use : Nat → Command} {others : List (File × Nat)}
    (huse : ∀ address, (use address).cells.Perm ((.register, address) :: others)) :
    cell ∈ cellsNamed (Writing.placed source use) ↔
      cell ∈ source.borrows ∨ cell ∈ source.cells ∨ cell ∈ others := by
  cases source with
  | cell address =>
      simp [Writing.placed, Line.cells, Source.borrows, Source.cells, (huse address).mem_iff]
  | immediate value =>
      have hmove : (Command.move scratch (.immediate value)).cells = [(.register, scratch)] := rfl
      simp [Writing.placed, Line.cells, Source.borrows, Source.cells, hmove, (huse scratch).mem_iff]

theorem mem_named_reckoned {op : WordOp} {target : Nat} {left right : Source} :
    cell ∈ cellsNamed (Writing.reckoned op target left right) ↔
      cell = (.register, target) ∨ cell ∈ left.cells ∨ cell ∈ right.cells := by
  unfold Writing.reckoned
  by_cases hsame : left = .cell target
  · simp [hsame, Line.cells, Command.cells, Source.cells]
  · simp [hsame, Line.cells, Command.cells]
    grind

theorem mem_named_joined {op : BitOp} {target left right : Nat} :
    cell ∈ cellsNamed (Writing.joined op target left right) ↔
      cell = (.bit, target) ∨ cell = (.bit, left) ∨ cell = (.bit, right) := by
  unfold Writing.joined
  by_cases hleft : target = left
  · simp [hleft, Line.cells, Command.cells]
  by_cases hright : target = right
  · rw [if_neg hleft, if_pos hright]
    simp [hright, Line.cells, Command.cells]
    grind
  · simp [hleft, hright, Line.cells, Command.cells]
    grind

theorem mem_named_assigned {place : Writing.Place} {address : Nat} {op : Option WordOp}
    {source : Source} : cell ∈ cellsNamed (Writing.assigned place address op source) ↔
      (place ≠ .register ∧ (op.isSome = true ∧ cell = (.register, scratch) ∨
        op.isSome = false ∧ cell ∈ source.borrows)) ∨
      cell ∈ source.cells ∨ place ≠ .port ∧ cell = (.register, address) := by
  cases op with
  | none =>
      cases place with
      | register =>
          simp [Writing.assigned, Line.cells, Command.cells]
          grind
      | memory =>
          have hplaced := @mem_named_placed cell source (.store address) [(.register, address)]
            fun _ => List.Perm.swap ..
          rw [Writing.assigned, hplaced]
          simp
      | port =>
          have hplaced := @mem_named_placed cell source (.output address) [] fun _ => List.Perm.refl _
          rw [Writing.assigned, hplaced]
          simp
  | some o =>
      cases place with
      | register =>
          simp [Writing.assigned, Line.cells, Command.cells]
          grind
      | memory =>
          simp [Writing.assigned, Line.cells, Command.cells]
          grind
      | port =>
          simp [Writing.assigned, Line.cells, Command.cells]
          grind

end Named

namespace Writing

variable {w : Writing} {index : Nat} {op : Op} {lines : List Line} {u : Unit} {cell : File × Nat}

/-- The cell that the op at an index was given. -/
def cell? (w : Writing) (index : Nat) : Option (File × Nat) :=
  (w.function.body[index]?).bind Op.cell?

/-- The operands whose cells an instruction needs.  A jump behind its comparison follows the flags,
and a truth literal is assigned without being read. -/
def reads (w : Writing) : Instruction → List Nat
  | .branch _ condition _ =>
    match (w.function.body[condition]?).bind fun test => flag? test.instruction with
    | some _ => []
    | none => [condition]
  | .assign none .bit target value =>
    match (w.function.body[value]?).bind fun source => truthLiteral? source.instruction with
    | some _ => [target]
    | none => [target, value]
  | x => x.operands

/-- The address of a named slot of a function, if it has one. -/
def slot? (w : Writing) (label name : String) : Option Nat :=
  ((w.program.find? label).bind fun f => f.locals.find? name).bind Offset.absolute?

/-- The file of the value of the op at an index. -/
def fileAt (w : Writing) (index : Nat) : File :=
  ((w.function.body[index]?).elim Width.word fun op => widthOf op.instruction).file

/-- The slot, here or in a function that is called, that an op puts a value into or takes it from. -/
def exchanged? (w : Writing) (op : Op) : Option (File × Nat) :=
  match op.instruction with
  | .call function (some width) => (w.slot? function Storage.resultName).map (width.file, ·)
  | .parameter function name value => (w.slot? function name).map (w.fileAt value, ·)
  | .ret (some value) => (w.slot? w.function.label Storage.resultName).map (w.fileAt value, ·)
  | _ => none

/-- **The cells that the lines of an op are to name**: scratch where it is borrowed, the op's own
cell, those of the values that it reads, and the slot that a value is passed to or taken from. -/
def cells (w : Writing) (index : Nat) (op : Op) : List (File × Nat) :=
  (w.borrowed? op).toList ++ (w.own? index).toList ++ (w.reads op.instruction).filterMap w.cell? ++
    (w.exchanged? op).toList

theorem mem_cells : cell ∈ w.cells index op ↔ w.borrowed? op = some cell ∨
    w.own? index = some cell ∨ (∃ r ∈ w.reads op.instruction, w.cell? r = some cell) ∨
      w.exchanged? op = some cell := by
  simp [cells, List.mem_filterMap]

/-- **What the lines of an op name** are its cells, all of them and no others; or else it would copy
a truth value from a bit to the same bit. -/
inductive Names (w : Writing) (index : Nat) (op : Op) (lines : List Line) : Prop
  | exactly : (∀ cell, cell ∈ cellsNamed lines ↔ cell ∈ w.cells index op) → Names w index op lines
  | idle {address : Nat} : op.instruction.isCopy = true → cellsNamed lines = [] →
      (∀ cell ∈ w.cells index op, cell = (.bit, address)) → Names w index op lines

theorem own?_eq_none (hop : w.function.body[index]? = some op)
    (h : op.instruction.resultFile? = none) : w.own? index = none := by
  rw [own?, hop]
  simp only [h]

theorem own?_iff {file : File} {address : Nat} (hop : w.function.body[index]? = some op)
    (hfile : op.instruction.resultFile? = some file) (h : w.address index = .ok address) :
    w.own? index = some cell ↔ cell = (file, address) := by
  rw [own?_of_address hop hfile h]
  exact Option.some_inj.trans eq_comm

theorem slot?_of_slot {label name : String} {slot : Nat} (h : w.slot index label name = .ok slot) :
    w.slot? label name = some slot := by
  obtain ⟨f, hf, hlocal⟩ := slot_eq_ok.mp h
  rw [slot?, hf, Option.bind_some, hlocal]
  rfl

section Operands

variable {r address : Nat} {source : Source}

theorem cell?_of_address (hop : w.function.body[r]? = some op)
    (htable : op.instruction.isTable = false) (hport : ∀ var, op.instruction ≠ .portOut var)
    (h : w.address r = .ok address) :
    w.cell? r = some cell ↔ cell = ((widthOf op.instruction).file, address) := by
  rw [cell?, hop, Option.bind_some, Op.cell?_of_absolute (offset_of_address hop h) htable hport]
  exact Option.some_inj.trans eq_comm

/-- A truth value that has an address is in that bit. -/
theorem cell?_of_bit (hgives : Gives w.look r .bit) (h : w.address r = .ok address) :
    w.cell? r = some cell ↔ cell = (.bit, address) := by
  obtain ⟨x, hx, hkind⟩ := hgives
  obtain ⟨op, hop, rfl⟩ := Flat.exists_of_codeOf_getElem? hx
  have htable : op.instruction.isTable = false := by
    cases hinstr : op.instruction with
    | ram | rom =>
        rw [hinstr] at hkind
        cases hkind
    | _ => rfl
  rw [cell?, hop, Option.bind_some, Op.cell?_of_kind? hkind htable (offset_of_address hop h)]
  exact Option.some_inj.trans eq_comm

/-- A word is used from its cell, if it has one. -/
theorem cell?_of_operand (hgives : Gives w.look r .word) (h : w.operand r = .ok source) :
    w.cell? r = some cell ↔ cell ∈ source.cells := by
  obtain ⟨x, hx, hkind⟩ := hgives
  obtain ⟨op, hop, rfl⟩ := Flat.exists_of_codeOf_getElem? hx
  obtain ⟨op', hop', hsource⟩ := operand_eq_ok.mp h
  obtain rfl : op' = op := Option.some.inj (hop'.symm.trans hop)
  rw [cell?, hop, Option.bind_some]
  obtain ⟨instruction, offset, last, position⟩ := op'
  cases offset with
  | absolute address =>
      cases htable : instruction.isTable with
      | true =>
          rw [Op.cell?_of_isTable htable]
          cases instruction with
          | ram | rom =>
              cases hsource
              simp [Source.cells]
          | _ => cases htable
      | false =>
          have hcell : source = .cell address := by
            cases instruction with
            | ram | rom => cases htable
            | _ => exact (Option.some.inj hsource).symm
          rw [Op.cell?_of_kind? hkind htable rfl, hcell]
          simp [Source.cells, Width.file, eq_comm]
  | _ =>
      rw [Op.cell?_of_unplaced rfl]
      cases instruction with
      | int | bool =>
          cases hsource
          simp [Source.cells]
      | _ => cases hsource

theorem borrows_of_operand (h : w.operand r = .ok source) :
    (if w.immediate r then some (File.register, scratch) else none) = some cell ↔
      cell ∈ source.borrows := by
  rw [immediate, h]
  cases source with
  | cell address => simp [Source.borrows]
  | immediate value => simp [Source.borrows, eq_comm]

/-- The place of an assignment, unless it is a port, is in a cell of its width. -/
theorem cell?_of_place {width : Width} (hop : w.function.body[r]? = some op)
    (hwidth : op.instruction.placeWidth? = some width) (h : w.address r = .ok address) :
    w.cell? r = some cell ↔ place? op.instruction ≠ some .port ∧ cell = (width.file, address) := by
  cases hinstr : op.instruction with
  | register | bit | address =>
      rw [hinstr] at hwidth
      cases hwidth
      rw [cell?_of_address hop (by rw [hinstr]; rfl) (by simp [hinstr]) h, hinstr]
      simp [place?, widthOf]
  | portOut =>
      have hnone : op.cell? = none := by
        simp [Op.cell?, hinstr]
      rw [cell?, hop, Option.bind_some, hnone]
      simp [place?]
  | _ =>
      rw [hinstr] at hwidth
      cases hwidth

theorem cell?_of_base (hop : w.function.body[r]? = some op) (hbase : op.instruction.isBase = true)
    (h : w.address r = .ok address) :
    w.cell? r = some cell ↔ cell ∈ (baseOf op.instruction address).cells := by
  cases hinstr : op.instruction with
  | register =>
      rw [cell?_of_address hop (by rw [hinstr]; rfl) (by simp [hinstr]) h, hinstr]
      simp [baseOf, Source.cells, widthOf, Width.file]
  | ram | rom =>
      rw [cell?, hop, Option.bind_some, Op.cell?_of_isTable (by rw [hinstr]; rfl)]
      simp [baseOf, Source.cells]
  | _ =>
      rw [hinstr] at hbase
      cases hbase

end Operands

section Instructions

variable {ctx : Context}

/-- **A conditional jump.** -/
theorem names_of_branch {expected : Bool} {condition : Nat} {target : Flat.Target}
    (hop : w.function.body[index]? = some op)
    (hinstr : op.instruction = .branch expected condition target)
    (hgives : Gives w.look condition .bit) (h : (w.branch expected condition target).Writes lines u) :
    ∀ cell, cell ∈ cellsNamed lines ↔ cell ∈ w.cells index op := by
  intro cell
  obtain ⟨test, htest, h⟩ := branch_writes.mp h
  have hown : w.own? index = none := own?_eq_none hop (by rw [hinstr]; rfl)
  have hflag : ((w.function.body[condition]?).bind fun test => flag? test.instruction) =
      flag? test.instruction := by rw [htest, Option.bind_some]
  simp only [mem_cells, hinstr, borrowed?, reads, exchanged?, hown, hflag]
  cases hcomparison : flag? test.instruction with
  | some comparison =>
      rw [hcomparison] at h
      subst h
      simp [Line.cells, Command.cells]
  | none =>
      rw [hcomparison] at h
      obtain ⟨address, haddress, rfl⟩ := h
      simp [Line.cells, Command.cells, cell?_of_bit hgives haddress, @eq_comm _ (File.bit, truth)]

/-- What keeps the outcome of a comparison names its own bit. -/
theorem mem_named_kept {test : CompareOp} {width : Width} {lhs rhs : Nat}
    (hop : w.function.body[index]? = some op) (hinstr : op.instruction = .compare test width lhs rhs) :
    cell ∈ cellsNamed (kept test op) ↔ w.own? index = some cell := by
  have hfile : op.instruction.resultFile? = some .bit := by
    rw [hinstr]
    rfl
  rw [own?_eq_some hop, hfile, kept]
  cases haddress : op.offset.absolute? with
  | some address =>
      rw [absolute_of_absolute? haddress]
      obtain ⟨file, number⟩ := cell
      simp [Line.cells, Command.cells, eq_comm]
  | none =>
      have hnot : ∀ number, op.offset ≠ .absolute number := by
        intro number heq
        rw [heq] at haddress
        cases haddress
      simp [hnot]

/-- **A comparison.** -/
theorem names_of_compare {test : CompareOp} {width : Width} {lhs rhs : Nat}
    (hop : w.function.body[index]? = some op) (hinstr : op.instruction = .compare test width lhs rhs)
    (hleft : Gives w.look lhs width) (hright : Gives w.look rhs width)
    (h : (w.compare index test width lhs rhs).Writes lines u) :
    ∀ cell, cell ∈ cellsNamed lines ↔ cell ∈ w.cells index op := by
  intro cell
  obtain ⟨self, hself, h⟩ := compare_writes.mp h
  obtain rfl : self = op := Option.some.inj (hself.symm.trans hop)
  have hkept := @mem_named_kept w index self cell _ _ _ _ hop hinstr
  cases width with
  | word =>
      obtain ⟨left, right, hl, hr, rfl⟩ := h
      have hplaced := @mem_named_placed cell left (.compare · right) right.cells
        fun _ => List.Perm.refl _
      rw [cellsNamed_append, List.mem_append, hplaced, hkept, mem_cells]
      simp only [hinstr, borrowed?, reads, exchanged?, Instruction.operands, List.mem_cons,
        List.not_mem_nil, or_false, exists_eq_or_imp, exists_eq_left, borrows_of_operand hl,
        cell?_of_operand hleft hl, cell?_of_operand hright hr, reduceCtorEq]
      grind
  | bit =>
      obtain ⟨left, right, hl, hr, rfl⟩ := h
      rw [cellsNamed_cons, List.mem_append, hkept, mem_cells]
      simp only [hinstr, borrowed?, reads, exchanged?, Instruction.operands, List.mem_cons,
        List.not_mem_nil, or_false, exists_eq_or_imp, exists_eq_left, cell?_of_bit hleft hl,
        cell?_of_bit hright hr, reduceCtorEq, Line.cells, Command.cells]
      grind

/-- **An operation on words.** -/
theorem names_of_mathWord {o : MathOp} {lhs : Nat} {rhs : Option Nat}
    (hop : w.function.body[index]? = some op) (hinstr : op.instruction = .math o .word lhs rhs)
    (hleft : Gives w.look lhs .word) (hright : ∀ r ∈ rhs, Gives w.look r .word)
    (h : (w.mathWord index o lhs rhs).Writes lines u) :
    ∀ cell, cell ∈ cellsNamed lines ↔ cell ∈ w.cells index op := by
  intro cell
  obtain ⟨_, target, left, right, _, htarget, hl, hr, rfl⟩ := mathWord_writes.mp h
  have hown := @own?_iff w index op cell .register target hop (by rw [hinstr]; rfl) htarget
  rw [mem_named_reckoned, mem_cells, hown]
  cases rhs with
  | none =>
      obtain rfl : right = .cell target := hr
      simp only [hinstr, borrowed?, reads, exchanged?, Instruction.operands, Option.toList_none,
        List.mem_cons, List.not_mem_nil, or_false, exists_eq_left, cell?_of_operand hleft hl,
        reduceCtorEq, false_or, Source.cells]
      grind
  | some rhs =>
      simp only [hinstr, borrowed?, reads, exchanged?, Instruction.operands, Option.toList_some,
        List.mem_cons, List.not_mem_nil, or_false, exists_eq_or_imp, exists_eq_left,
        cell?_of_operand hleft hl, cell?_of_operand (hright rhs rfl) hr, reduceCtorEq, false_or]

/-- **An operation on bits.** -/
theorem names_of_mathBit {o : MathOp} {lhs : Nat} {rhs : Option Nat}
    (hop : w.function.body[index]? = some op) (hinstr : op.instruction = .math o .bit lhs rhs)
    (hleft : Gives w.look lhs .bit) (hright : ∀ r ∈ rhs, Gives w.look r .bit)
    (h : (w.mathBit index o lhs rhs).Writes lines u) :
    ∀ cell, cell ∈ cellsNamed lines ↔ cell ∈ w.cells index op := by
  intro cell
  obtain ⟨_, target, left, _, htarget, hl, h⟩ := mathBit_writes.mp h
  have hown := @own?_iff w index op cell .bit target hop (by rw [hinstr]; rfl) htarget
  rw [mem_cells, hown]
  cases rhs with
  | none =>
      subst h
      simp only [hinstr, borrowed?, reads, exchanged?, Instruction.operands, Option.toList_none,
        List.mem_cons, List.not_mem_nil, or_false, exists_eq_left, cell?_of_bit hleft hl,
        reduceCtorEq, false_or, cellsNamed_cons, cellsNamed_nil, List.append_nil, Line.cells,
        Command.cells]
  | some rhs =>
      obtain ⟨right, hr, rfl⟩ := h
      rw [mem_named_joined]
      simp only [hinstr, borrowed?, reads, exchanged?, Instruction.operands, Option.toList_some,
        List.mem_cons, List.not_mem_nil, or_false, exists_eq_or_imp, exists_eq_left,
        cell?_of_bit hleft hl, cell?_of_bit (hright rhs rfl) hr, reduceCtorEq, false_or]

/-- **The address of an array element.** -/
theorem mem_named_elementAddress {array element : Nat} (helement : Gives w.look element .word)
    (hbase : ∃ base, w.look array = some base ∧ base.isBase = true)
    (h : (w.elementAddress index array element).Writes lines u) :
    ∃ target, w.address index = .ok target ∧ ∀ cell, cell ∈ cellsNamed lines ↔
      cell = (.register, target) ∨ w.cell? array = some cell ∨ w.cell? element = some cell := by
  obtain ⟨target, source, base, address, htarget, hsource, hbaseAt, haddress, rfl⟩ :=
    elementAddress_writes.mp h
  obtain ⟨x, hx, hisBase⟩ := hbase
  rw [look, Flat.codeOf_getElem? hbaseAt] at hx
  obtain rfl : base.instruction = x := Option.some.inj hx
  refine ⟨target, htarget, fun cell => ?_⟩
  rw [cell?_of_operand helement hsource, cell?_of_base hbaseAt hisBase haddress]
  simp [Line.cells, Command.cells]
  grind

/-- **An assignment of a truth value.** -/
theorem names_of_assignBit {change : Option MathOp} {target value : Nat}
    (hop : w.function.body[index]? = some op)
    (hinstr : op.instruction = .assign change .bit target value)
    (hvalue : Gives w.look value .bit)
    (hplace : ∃ place, w.look target = some place ∧ place.placeWidth? = some .bit)
    (h : (w.assignBit index change target value).Writes lines u) : w.Names index op lines := by
  obtain ⟨address, source, haddress, hsource, h⟩ := assignBit_writes.mp h
  obtain ⟨place, hplace, hwidth⟩ := hplace
  obtain ⟨opAt, hopAt, rfl⟩ := Flat.exists_of_codeOf_getElem? hplace
  have hown : w.own? index = none := own?_eq_none hop (by rw [hinstr]; rfl)
  have htarget : ∀ cell, w.cell? target = some cell ↔ cell = (.bit, address) := by
    intro cell
    rw [cell?_of_place hopAt hwidth haddress]
    refine and_iff_right fun hport => ?_
    cases hinstr : opAt.instruction with
    | bit =>
        rw [hinstr] at hport
        cases hport
    | _ =>
        rw [hinstr] at hwidth
        cases hwidth
  have hliteral : ((w.function.body[value]?).bind fun source => truthLiteral? source.instruction) =
      truthLiteral? source.instruction := by rw [hsource, Option.bind_some]
  cases change with
  | some o =>
      obtain ⟨_, bit, _, hfrom, rfl⟩ := h
      refine .exactly fun cell => ?_
      rw [mem_cells, hown]
      simp [hinstr, borrowed?, reads, exchanged?, Instruction.operands, htarget,
        cell?_of_bit hvalue hfrom, Line.cells, Command.cells]
  | none =>
      cases htruth : truthLiteral? source.instruction with
      | some literal =>
          rw [htruth] at h
          subst h
          refine .exactly fun cell => ?_
          rw [mem_cells, hown]
          simp [hinstr, borrowed?, reads, exchanged?, hliteral, htruth, htarget, Line.cells,
            Command.cells]
      | none =>
          rw [htruth] at h
          obtain ⟨bit, hfrom, rfl⟩ := h
          have hcells : ∀ cell, cell ∈ w.cells index op ↔
              cell = (.bit, address) ∨ cell = (.bit, bit) := by
            intro cell
            rw [mem_cells, hown]
            simp [hinstr, borrowed?, reads, exchanged?, hliteral, htruth, htarget,
              cell?_of_bit hvalue hfrom]
          by_cases hsame : address = bit
          · subst hsame
            have hnone : cellsNamed (copied .bit address address) = [] := by simp [copied]
            have hbit : ∀ cell ∈ w.cells index op, cell = (.bit, address) := by
              intro cell hcell
              simpa using (hcells cell).mp hcell
            exact .idle (by rw [hinstr]; rfl) hnone hbit
          · exact .exactly fun cell => (mem_named_copied fun _ => hsame).trans (hcells cell).symm

/-- **An assignment of a word.** -/
theorem names_of_assignWord {change : Option MathOp} {target value : Nat}
    (hop : w.function.body[index]? = some op)
    (hinstr : op.instruction = .assign change .word target value)
    (hvalue : Gives w.look value .word)
    (hplace : ∃ place, w.look target = some place ∧ place.placeWidth? = some .word)
    (h : (w.assignWord index change target value).Writes lines u) :
    ∀ cell, cell ∈ cellsNamed lines ↔ cell ∈ w.cells index op := by
  intro cell
  obtain ⟨o, source, opAt, kind, address, ho, hsource, hopAt, hkind, haddress, rfl⟩ :=
    assignWord_writes.mp h
  obtain ⟨place, hplace, hwidth⟩ := hplace
  rw [look, Flat.codeOf_getElem? hopAt] at hplace
  obtain rfl : opAt.instruction = place := Option.some.inj hplace
  have hown : w.own? index = none := own?_eq_none hop (by rw [hinstr]; rfl)
  have hchange : o.isSome = change.isSome := by
    cases change with
    | none =>
        cases ho
        rfl
    | some c =>
        cases hword : w.wordOp index c with
        | error e => simp [hword, Functor.map, Except.map] at ho
        | ok wordOp =>
            simp [hword, Functor.map, Except.map] at ho
            rw [← ho]
            rfl
  have hborrowed : w.borrowed? op = some cell ↔ kind ≠ .register ∧
      (o.isSome = true ∧ cell = (.register, scratch) ∨
        o.isSome = false ∧ cell ∈ source.borrows) := by
    have hborrows := @borrows_of_operand w cell value source hsource
    rw [hchange]
    simp only [borrowed?, hinstr, hopAt, Option.bind_some, hkind]
    cases kind with
    | register => simp
    | memory | port =>
        cases change with
        | none => simpa using hborrows
        | some c => simp [eq_comm]
  rw [mem_named_assigned, mem_cells, hown, hborrowed]
  simp only [hinstr, reads, exchanged?, Instruction.operands, List.mem_cons, List.not_mem_nil,
    or_false, exists_eq_or_imp, exists_eq_left, cell?_of_operand hvalue hsource,
    cell?_of_place hopAt hwidth haddress, hkind, reduceCtorEq, false_or, Width.file, ne_eq,
    Option.some.injEq]
  grind

/-- **A value that is passed** to a slot, or is there already. -/
theorem names_of_pass {value slot : Nat} {kind : Width} (hgives : Gives w.look value kind)
    (h : (w.pass slot value).Writes lines u) :
    (∀ cell, cell ∈ cellsNamed lines ↔ cell = (w.fileAt value, slot) ∨ w.cell? value = some cell) ∨
      cellsNamed lines = [] ∧ w.fileAt value = .bit ∧ w.cell? value = some (.bit, slot) := by
  obtain ⟨source, hsource, hpassed⟩ := pass_writes.mp h
  obtain ⟨x, hx, hkind⟩ := hgives
  rw [look, Flat.codeOf_getElem? hsource] at hx
  obtain rfl : source.instruction = x := Option.some.inj hx
  have hfile : w.fileAt value = kind.file := by
    rw [fileAt, hsource, Option.elim_some, widthOf_eq_of_kind? hkind]
  have hcell : w.cell? value = source.cell? := by
    rw [cell?, hsource, Option.bind_some]
  rw [hfile, hcell]
  obtain ⟨instruction, offset, last, position⟩ := source
  cases offset with
  | absolute address =>
      cases htable : instruction.isTable with
      | true =>
          left
          intro cell
          rw [Op.cell?_of_isTable htable]
          cases instruction with
          | ram | rom =>
              cases hkind
              cases hpassed
              simp [Line.cells, Command.cells, Source.cells, Width.file]
          | _ => cases htable
      | false =>
          have hlines : lines = copied kind slot address := by
            rw [← widthOf_eq_of_kind? hkind]
            cases instruction with
            | ram | rom => cases htable
            | _ => exact (Option.some.inj hpassed).symm
          rw [hlines, Op.cell?_of_kind? hkind htable rfl]
          by_cases hidle : kind = .bit ∧ slot = address
          · obtain ⟨rfl, rfl⟩ := hidle
            exact .inr ⟨by simp [copied], rfl, rfl⟩
          · left
            intro cell
            rw [mem_named_copied fun hbit hsame => hidle ⟨hbit, hsame⟩]
            simp [eq_comm]
  | _ =>
      left
      intro cell
      rw [Op.cell?_of_unplaced rfl]
      cases instruction with
      | int | bool =>
          cases hkind
          cases hpassed
          simp [Line.cells, Command.cells, Source.cells, Width.file]
      | _ => cases hpassed

/-- What is passed to the slot of an op is named, or is there already. -/
theorem names_of_exchange {value slot : Nat} {kind : Width} {rest : List Line}
    (hgives : Gives w.look value kind) (hcopy : op.instruction.isCopy = true)
    (hborrowed : w.borrowed? op = none) (hown : w.own? index = none)
    (hreads : w.reads op.instruction = [value])
    (hslot : w.exchanged? op = some (w.fileAt value, slot)) (hrest : cellsNamed rest = [])
    (h : (w.pass slot value).Writes lines u) : w.Names index op (lines ++ rest) := by
  have hcells : ∀ cell, cell ∈ w.cells index op ↔
      cell = (w.fileAt value, slot) ∨ w.cell? value = some cell := by
    intro cell
    rw [mem_cells, hborrowed, hown, hreads, hslot]
    simp [eq_comm, or_comm]
  have hlines : cellsNamed (lines ++ rest) = cellsNamed lines := by
    rw [cellsNamed_append, hrest, List.append_nil]
  obtain hall | ⟨hnone, hfile, hvalue⟩ := names_of_pass hgives h
  · refine .exactly fun cell => ?_
    rw [hlines, hall, hcells]
  · have hbit : ∀ cell ∈ w.cells index op, cell = (.bit, slot) := by
      intro cell hcell
      rw [hcells, hfile, hvalue] at hcell
      obtain rfl | hcell := hcell
      · rfl
      · exact (Option.some.inj hcell).symm
    exact .idle hcopy (hlines.trans hnone) hbit

/-- **The result of a call** is taken from the slot of the function, or is there already. -/
theorem names_of_call {function : String} {width : Width} {address slot : Nat}
    (hop : w.function.body[index]? = some op)
    (hinstr : op.instruction = .call function (some width))
    (haddress : w.address index = .ok address)
    (hslot : w.slot index function Storage.resultName = .ok slot) :
    w.Names index op (.command (.call function) :: copied width address slot) := by
  have hown := fun cell => @own?_iff w index op cell width.file address hop (by rw [hinstr]; rfl) haddress
  have hcells : ∀ cell, cell ∈ w.cells index op ↔
      cell = (width.file, address) ∨ cell = (width.file, slot) := by
    intro cell
    rw [mem_cells, hown]
    simp [hinstr, borrowed?, reads, exchanged?, Instruction.operands, slot?_of_slot hslot, eq_comm]
  have hlines : cellsNamed (.command (.call function) :: copied width address slot) =
      cellsNamed (copied width address slot) := cellsNamed_cons
  by_cases hidle : width = .bit ∧ address = slot
  · obtain ⟨rfl, rfl⟩ := hidle
    have hnone : cellsNamed (copied .bit address address) = [] := by simp [copied]
    have hbit : ∀ cell ∈ w.cells index op, cell = (.bit, address) := by
      intro cell hcell
      simpa [Width.file] using (hcells cell).mp hcell
    exact .idle (by rw [hinstr]; rfl) (hlines.trans hnone) hbit
  · refine .exactly fun cell => ?_
    rw [hlines, hcells]
    exact mem_named_copied fun hbit hsame => hidle ⟨hbit, hsame⟩

theorem names_of_own {file : File} {address : Nat} (hop : w.function.body[index]? = some op)
    (hfile : op.instruction.resultFile? = some file) (haddress : w.address index = .ok address)
    (hborrowed : w.borrowed? op = none) (hexchanged : w.exchanged? op = none)
    (h : ∀ cell, cell ∈ cellsNamed lines ↔
      cell = (file, address) ∨ ∃ r ∈ w.reads op.instruction, w.cell? r = some cell) :
    w.Names index op lines := by
  refine .exactly fun cell => ?_
  rw [h, mem_cells, hborrowed, hexchanged, own?_iff hop hfile haddress]
  simp

theorem names_of_literal {file : File} {put : Nat → Command}
    (hop : w.function.body[index]? = some op) (hfile : op.instruction.resultFile? = some file)
    (hborrowed : w.borrowed? op = none) (hexchanged : w.exchanged? op = none)
    (hreads : w.reads op.instruction = []) (hput : ∀ address, (put address).cells = [(file, address)]) :
    w.Names index op (loaded op put) := by
  refine .exactly fun cell => ?_
  rw [mem_cells, hborrowed, hexchanged, hreads, own?_eq_some hop, hfile, loaded]
  obtain ⟨file', number⟩ := cell
  cases haddress : op.offset.absolute? with
  | some address =>
      rw [absolute_of_absolute? haddress]
      simp [Line.cells, hput, eq_comm]
  | none =>
      have hnot : ∀ number, op.offset ≠ .absolute number := by
        intro number heq
        rw [heq] at haddress
        cases haddress
      simp [hnot]

/-- An op without cells of its own and without operands names none. -/
theorem names_of_bare (hop : w.function.body[index]? = some op)
    (hfile : op.instruction.resultFile? = none) (hborrowed : w.borrowed? op = none)
    (hexchanged : w.exchanged? op = none) (hreads : w.reads op.instruction = [])
    (h : cellsNamed lines = []) : w.Names index op lines := by
  refine .exactly fun cell => ?_
  rw [h, mem_cells, hborrowed, hexchanged, hreads, own?_eq_none hop hfile]
  simp

theorem Names.append_blank (h : w.Names index op lines) : w.Names index op (lines ++ [.blank]) := by
  have hlines : cellsNamed (lines ++ [.blank]) = cellsNamed lines := by
    rw [cellsNamed_append]
    exact List.append_nil _
  cases h with
  | exactly h =>
      refine .exactly fun cell => ?_
      rw [hlines]
      exact h cell
  | idle hcopy hnone hbit => exact .idle hcopy (hlines.trans hnone) hbit

/-- **What the lines of an op name are the cells that follow from the allocation.** -/
theorem names_of_writes (hop : w.function.body[index]? = some op)
    (hsuits : Suits ctx w.look op.instruction) (h : (w.opLines index op).Writes lines u) :
    w.Names index op lines := by
  rw [opLines_writes] at h
  obtain ⟨instruction, offset, last, position⟩ := op
  cases instruction with
  | branch expected condition target => exact .exactly (names_of_branch hop rfl hsuits h)
  | compare test width lhs rhs => exact .exactly (names_of_compare hop rfl hsuits.1 hsuits.2 h)
  | math o width lhs rhs =>
      have hleft : Gives w.look lhs width := by
        cases rhs with
        | none => exact hsuits.2.2
        | some rhs => exact hsuits.2.2.1
      have hright : ∀ r ∈ rhs, Gives w.look r width := by
        intro r hr
        cases hr
        exact hsuits.2.2.2
      cases width with
      | word => exact .exactly (names_of_mathWord hop rfl hleft hright h)
      | bit => exact .exactly (names_of_mathBit hop rfl hleft hright h)
  | assign change width target value =>
      obtain ⟨hvalue, _, hplace⟩ := hsuits
      cases width with
      | word =>
          obtain ⟨first, hfirst, rfl⟩ := h
          have hnames := names_of_assignWord hop rfl hvalue hplace hfirst
          exact Names.append_blank (.exactly hnames)
      | bit =>
          obtain ⟨first, hfirst, rfl⟩ := h
          exact (names_of_assignBit hop rfl hvalue hplace hfirst).append_blank
  | address array element =>
      obtain ⟨target, htarget, hcells⟩ := mem_named_elementAddress hsuits.1 hsuits.2 h
      refine names_of_own hop rfl htarget rfl rfl fun cell => ?_
      rw [hcells]
      simp [reads, Instruction.operands]
  | element space array element =>
      obtain ⟨address, haddress, first, hfirst, rfl⟩ := h
      obtain ⟨target, htarget, hcells⟩ := mem_named_elementAddress hsuits.1 hsuits.2 hfirst
      obtain rfl : target = address := Except.ok.inj (htarget.symm.trans haddress)
      refine names_of_own hop rfl htarget rfl rfl fun cell => ?_
      rw [cellsNamed_append, List.mem_append, hcells]
      simp [reads, Instruction.operands, Line.cells, Command.cells]
      grind
  | portIn var =>
      obtain ⟨port, _, address, haddress, rfl⟩ := h
      refine names_of_own hop rfl haddress rfl rfl fun cell => ?_
      simp [reads, Instruction.operands, Line.cells, Command.cells]
  | timer value =>
      obtain ⟨source, hsource, rfl⟩ := h
      refine .exactly fun cell => ?_
      rw [mem_cells, own?_eq_none hop rfl]
      simp [borrowed?, reads, exchanged?, Instruction.operands, Line.cells, Command.cells,
        cell?_of_operand hsuits hsource]
  | call function result =>
      cases result with
      | none =>
          subst h
          exact names_of_bare hop rfl rfl rfl rfl rfl
      | some width =>
          obtain ⟨address, haddress, slot, hslot, rfl⟩ := h
          exact names_of_call hop rfl haddress hslot
  | parameter function name value =>
      obtain ⟨slot, hslot, hpass⟩ := h
      obtain ⟨_, _, p, _, _, hgives⟩ := hsuits
      rw [← List.append_nil lines]
      exact names_of_exchange hgives rfl rfl (own?_eq_none hop rfl) rfl
        (congrArg (Option.map _) (slot?_of_slot hslot)) rfl hpass
  | ret value =>
      cases value with
      | none =>
          subst h
          exact names_of_bare hop rfl rfl rfl rfl rfl
      | some value =>
          obtain ⟨slot, hslot, first, hpass, rfl⟩ := h
          obtain ⟨_, _, hgives⟩ := hsuits
          exact names_of_exchange hgives rfl rfl (own?_eq_none hop rfl) rfl
            (congrArg (Option.map _) (slot?_of_slot hslot)) rfl hpass
  | int value =>
      subst h
      exact names_of_literal hop rfl rfl rfl rfl fun _ => rfl
  | bool value =>
      subst h
      exact names_of_literal hop rfl rfl rfl rfl fun _ => rfl
  | _ =>
      subst h
      exact names_of_bare hop rfl rfl rfl rfl rfl

end Instructions

end Writing

end Assembly

end Stackless
