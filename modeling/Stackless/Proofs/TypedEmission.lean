import Stackless.Proofs.Footprint
import Stackless.Proofs.Typing

/-!
# Where typed values are

The allocator decides which values get a slot, and in which file; the emitter decides by
itself which operands it takes as addresses and which as immediates.  In a typed program
the two agree:

* `Typed.suits` — after all phases the operands of an op are still of the kinds it works on;
* `Typed.lies` — every operand is in a cell of the file of its kind, or is a literal, the
  address of an array, or the flags of a comparison before its branch;
* `Typed.word_operand`, `Typed.bit_address`, `Typed.pass_sound` — so the emitter finds it.

`Proper` lists the cells of a file that a section may name: scratch, the window of the
function, the windows of the functions that it calls, and globals in that file.
-/

namespace Stackless

open Flat (Op Instruction Offset File Width Var Gives Suits resultWidth mathWidth codeOf)
open Assembly

namespace Assembly

/-- The cells that a source names. -/
def Source.cells : Source → List (File × Nat)
  | .cell address => [(.register, address)]
  | .immediate _ => []

/-- The cells that a command names, to read or to write them. -/
def Command.cells : Command → List (File × Nat)
  | .move target source | .word _ target source => (.register, target) :: source.cells
  | .moveBit target source | .bit _ target source => [(.bit, target), (.bit, source)]
  | .setBit target _ | .test _ target => [(.bit, target)]
  | .input target _ => [(.register, target)]
  | .output _ source => [(.register, source)]
  | .load _ target pointer => [(.register, target), (.register, pointer)]
  | .store pointer source => [(.register, pointer), (.register, source)]
  | .compare lhs rhs => (.register, lhs) :: rhs.cells
  | .compareBit lhs rhs => [(.bit, lhs), (.bit, rhs)]
  | .timer source => source.cells
  | _ => []

/-- The cells that a line names. -/
def Line.cells : Line → List (File × Nat)
  | .command c => c.cells
  | _ => []

/-- All cells that lines name have a property. -/
def Keeps (P : File × Nat → Prop) (lines : List Line) : Prop :=
  ∀ l ∈ lines, ∀ cell ∈ l.cells, P cell

/-- What stands at an index. -/
def Writing.look (w : Writing) (index : Nat) : Option Instruction :=
  (codeOf w.function.body)[index]?

section Keeps

variable {P : File × Nat → Prop} {xs ys : List Line} {l : Line}

@[simp]
theorem keeps_nil : Keeps P [] :=
  nofun

@[simp]
theorem keeps_cons : Keeps P (l :: xs) ↔ (∀ cell ∈ l.cells, P cell) ∧ Keeps P xs :=
  List.forall_mem_cons

@[simp]
theorem keeps_append : Keeps P (xs ++ ys) ↔ Keeps P xs ∧ Keeps P ys := by
  simp [Keeps, or_imp, forall_and]

theorem keeps_single {command : Command} {cell : File × Nat} (hcell : P cell)
    (h : command.cells = [cell]) : Keeps P [.command command] := by
  simpa [Line.cells, h] using hcell

/-- The width of a value is its kind. -/
theorem widthOf_eq_of_kind? {x : Instruction} {kind : Width} (h : x.kind? = some kind) :
    widthOf x = kind := by
  cases x with
  | call function result =>
      cases result with
      | none => cases h
      | some width => exact Option.some.inj h
  | register | ram | rom | portIn | element | int | bit | bool | compare | math =>
      exact Option.some.inj h
  | _ => cases h

/-- A copy names its two places. -/
theorem keeps_copied {width : Width} {target source : Nat} (htarget : P (width.file, target))
    (hsource : P (width.file, source)) : Keeps P (Writing.copied width target source) := by
  cases width with
  | word =>
      simp only [Writing.copied, keeps_cons, keeps_nil, Line.cells, Command.cells, Source.cells]
      simpa using ⟨htarget, hsource⟩
  | bit =>
      unfold Writing.copied
      dsimp only
      split
      · exact keeps_nil
      · simp only [keeps_cons, keeps_nil, Line.cells, Command.cells]
        simpa using ⟨htarget, hsource⟩

/-- A word that is used in a register is there, or goes through scratch. -/
theorem keeps_placed {source : Source} {use : Nat → Command} (hscratch : P (.register, scratch))
    (hsource : ∀ cell ∈ source.cells, P cell)
    (huse : ∀ address, P (.register, address) → ∀ cell ∈ (use address).cells, P cell) :
    Keeps P (Writing.placed source use) := by
  cases source with
  | cell address =>
      simp only [Writing.placed, keeps_cons, keeps_nil, and_true]
      exact huse address (hsource _ List.mem_cons_self)
  | immediate value =>
      simp only [Writing.placed, keeps_cons, keeps_nil, and_true]
      refine ⟨?_, huse scratch hscratch⟩
      simpa [Line.cells, Command.cells, Source.cells] using hscratch

/-- An operation on words names its target and its operands. -/
theorem keeps_reckoned {op : WordOp} {target : Nat} {left right : Source}
    (htarget : P (.register, target)) (hleft : ∀ cell ∈ left.cells, P cell)
    (hright : ∀ cell ∈ right.cells, P cell) : Keeps P (Writing.reckoned op target left right) := by
  have hword : ∀ cell ∈ (Line.command (.word op target right)).cells, P cell :=
    List.forall_mem_cons.mpr ⟨htarget, hright⟩
  unfold Writing.reckoned
  split
  · simpa using hword
  · simp only [keeps_cons, keeps_nil, and_true]
    exact ⟨List.forall_mem_cons.mpr ⟨htarget, hleft⟩, hword⟩

/-- An operation on bits names its target and its operands. -/
theorem keeps_joined {op : BitOp} {target left right : Nat} (htarget : P (.bit, target))
    (hleft : P (.bit, left)) (hright : P (.bit, right)) :
    Keeps P (Writing.joined op target left right) := by
  unfold Writing.joined
  split
  · simpa [Line.cells, Command.cells] using ⟨htarget, hright⟩
  · split
    · simpa [Line.cells, Command.cells] using ⟨htarget, hleft⟩
    · simpa [Line.cells, Command.cells] using ⟨⟨htarget, hleft⟩, htarget, hright⟩

/-- A comparison that is kept is kept in its bit. -/
theorem keeps_kept {op : Model.CompareOp} {self : Op}
    (h : ∀ address, self.offset = .absolute address → P (.bit, address)) :
    Keeps P (Writing.kept op self) := by
  unfold Writing.kept
  split
  · rename_i address haddress
    simpa [Line.cells, Command.cells] using h address (Writing.absolute_of_absolute? haddress)
  · exact keeps_nil

/-- An assignment of a word names its source and its place, which is a port or in a
register. -/
theorem keeps_assigned {place : Writing.Place} {address : Nat} {op : Option WordOp}
    {source : Source} (hscratch : P (.register, scratch)) (hsource : ∀ cell ∈ source.cells, P cell)
    (hplace : place ≠ .port → P (.register, address)) :
    Keeps P (Writing.assigned place address op source) := by
  have hword : ∀ o target, P (.register, target) →
      ∀ cell ∈ (Line.command (.word o target source)).cells, P cell :=
    fun o target htarget => List.forall_mem_cons.mpr ⟨htarget, hsource⟩
  cases place with
  | register =>
      have haddress := hplace (by intro heq; cases heq)
      cases op with
      | none =>
          simp only [Writing.assigned, keeps_cons, keeps_nil, and_true]
          exact List.forall_mem_cons.mpr ⟨haddress, hsource⟩
      | some o =>
          simp only [Writing.assigned, keeps_cons, keeps_nil, and_true]
          exact hword o address haddress
  | memory =>
      have haddress := hplace (by intro heq; cases heq)
      cases op with
      | none =>
          refine keeps_placed hscratch hsource fun register hregister => ?_
          simpa [Command.cells] using ⟨haddress, hregister⟩
      | some o =>
          simp only [Writing.assigned, keeps_cons, keeps_nil, and_true]
          refine ⟨?_, hword o scratch hscratch, ?_⟩
          · simpa [Line.cells, Command.cells] using ⟨hscratch, haddress⟩
          · simpa [Line.cells, Command.cells] using ⟨haddress, hscratch⟩
  | port =>
      cases op with
      | none =>
          refine keeps_placed hscratch hsource fun register hregister => ?_
          simpa [Command.cells] using hregister
      | some o =>
          simp only [Writing.assigned, keeps_cons, keeps_nil, and_true]
          refine ⟨?_, hword o scratch hscratch, ?_⟩
          · simpa [Line.cells, Command.cells] using hscratch
          · simpa [Line.cells, Command.cells] using hscratch

end Keeps

end Assembly

/-- **The cells that a section may name**, each of its own file: the two of scratch, those in the
window of the function or of one that it calls, and those of globals. -/
inductive Compilation.Proper (model : Model.Program) (c : Compilation) (F : Flat.Function) :
    File × Nat → Prop
  | register : Proper model c F (.register, scratch)
  | truth : Proper model c F (.bit, truth)
  | own {file : File} {address : Nat} : (F.window file).Holds address → Proper model c F (file, address)
  | callee {label : String} {G : Flat.Function} {file : File} {address : Nat} :
      label ∈ F.calls.map (·.1) → c.program.find? label = some G → (G.window file).Holds address →
      Proper model c F (file, address)
  | global {module name : String} {symbol : Model.Symbol} {file : File} {address : Nat} :
      model.global? module name = some symbol → Storage.fileOf? symbol.storage = some file →
      c.layout.addresses.find? (Model.qualify module name) = some address →
      Proper model c F (file, address)

/-- Whether an instruction jumps on a condition. -/
def Flat.Instruction.isBranch : Instruction → Bool
  | .branch _ _ _ => true
  | _ => false

/-- Whether the value of an instruction is the address of a memory. -/
def Flat.Instruction.isTable : Instruction → Bool
  | .ram _ | .rom _ => true
  | _ => false

/-- No op uses an op that was taken out. -/
def Flat.Intact (body : List Op) : Prop :=
  ∀ op ∈ body, ∀ r ∈ op.instruction.operands, (codeOf body)[r]? ≠ some .removed

instance (body : List Op) : Decidable (Flat.Intact body) :=
  inferInstanceAs (Decidable (∀ op ∈ body, ∀ r ∈ op.instruction.operands, _))

namespace Stages.Member

variable {model : Model.Program} {c : Compilation} {s : Stages model c} {label : String}

/-- A function of a typed program that is reached, and of which no op uses one that was
taken out. -/
structure Typed (m : s.Member label) : Prop where
  typed : model.WellTyped
  reached : label ∈ c.layout.order
  intact : Flat.Intact m.simple.body

/-- What stands at an index in the end. -/
def look (m : s.Member label) (r : Nat) : Option Instruction :=
  (codeOf m.final.body)[r]?

theorem look_eq (m : s.Member label) (r : Nat) : m.look r = (codeOf m.framing.visit.body)[r]? :=
  congrArg (·[r]?) m.codeOf_final

/-- The cells that the section of the function may name. -/
def Proper (m : s.Member label) (cell : File × Nat) : Prop :=
  c.Proper model m.final cell

theorem source_typed (m : s.Member label) (h : model.WellTyped) : m.source.WellTyped model := by
  obtain ⟨module, hmodule, hsource⟩ := m.source_mem h.filed
  exact h.typed module hmodule m.source hsource

/-- **In the end all instructions suit.**  The flat code of a typed function fits, and what was
taken out after that leaves no instruction that is left without its operands, but for a stranded
return. -/
theorem Typed.suits {m : s.Member label} (h : m.Typed) {j : Nat} {y : Instruction}
    (hy : m.look j = some y) : Suits ⟨model, m.source⟩ m.look y := by
  obtain ⟨l⟩ := m.exists_lineage
  have hfits := l.fits h.typed.operandTyped
  rw [l.origin_eq_source h.typed.filed] at hfits
  obtain ⟨op, hop, rfl⟩ := Flat.exists_of_codeOf_getElem? hy
  rcases m.drawn_final l.drawn j op hop with hremoved | ⟨instr, target, hinstr, heq⟩
  · rw [hremoved]
    trivial
  · rw [heq] at hy ⊢
    refine ((hfits instr (List.mem_of_getElem? hinstr)).retarget target).of_operands ?_
    intro r hr x hx hinner
    have hx : l.code[r]? = some x := by simpa [Flat.lookIn] using hx
    have hlive : instr.retarget target ≠ .removed := by
      intro hremoved
      rw [hremoved] at hr
      cases hr
    have hsimple := m.simple_of_codeOf_final hy hlive
    obtain ⟨user, huser, hsame⟩ := Flat.exists_of_codeOf_getElem? hsimple
    have hkept := h.intact user (List.mem_of_getElem? huser) r (hsame ▸ hr)
    have hlt : r < m.simple.body.length := l.length_eq ▸ (List.getElem?_eq_some_iff.mp hx).1
    obtain ⟨mid, hmid⟩ : ∃ mid, m.simple.body[r]? = some mid := ⟨_, List.getElem?_eq_getElem hlt⟩
    rw [Flat.codeOf_getElem? hmid] at hkept
    have hxx : mid.instruction = x := by
      rcases l.drawn r mid hmid with hgone | ⟨before, elsewhere, hbefore, hdrawn⟩
      · exact absurd (congrArg some hgone) hkept
      · rw [hx] at hbefore
        cases hbefore
        rw [hdrawn]
        cases x with
        | jump | branch => cases hinner
        | _ => rfl
    refine m.final_of_used hy hr (hxx ▸ Flat.codeOf_getElem? hmid) ?_
    cases x with
    | assign => cases hinner
    | _ => rfl

theorem Sees.proper {m : s.Member label} {cell : File × Nat} (h : m.Sees cell) : m.Proper cell := by
  rcases h with hholds | ⟨_, _, _, hglobal, hfile, hfind⟩
  · exact .own hholds
  · exact .global hglobal hfile hfind

/-- A variable may be named. -/
theorem Typed.proper_of_variable {m : s.Member label} (h : m.Typed) {i : Nat} {x : Instruction}
    {var : Var} {storage : Model.Storage} {file : File} {address : Nat}
    (hx : (codeOf m.simple.body)[i]? = some x) (hstorage : x.storage? = some (var, storage))
    (hfile : Storage.fileOf? storage = some file) (haddress : m.addressOf? var = some address) :
    m.Proper (file, address) :=
  (m.sees_of_variable h.typed.filed
    (Model.Function.keepsResult_of_unnamed (m.source_typed h.typed).unnamed)
    hx hstorage hfile haddress).proper

/-- Where the value of an op is for its user. -/
inductive Lies (m : s.Member label) (user : Instruction) (r : Nat) (op : Op) (kind : Width) : Prop
  /-- In a cell. -/
  | cell {address : Nat} : op.offset = .absolute address → m.Proper (kind.file, address) →
      op.instruction.isTable = false → Lies m user r op kind
  /-- It is the address of an array. -/
  | base {address : Nat} : op.offset = .absolute address → op.instruction.isTable = true →
      kind = .word → Lies m user r op kind
  /-- It is a word literal. -/
  | int {value : Int32} : op.offset = .unresolved → op.instruction = .int value → kind = .word →
      Lies m user r op kind
  /-- It is a truth literal, and not needed in the bit file. -/
  | bool {value : Bool} : op.offset = .unresolved → op.instruction = .bool value → kind = .bit →
      r ∉ user.truths → Lies m user r op kind
  /-- It is in the flags, right before a conditional jump. -/
  | flags {comparison : Model.CompareOp} : Writing.flag? op.instruction = some comparison →
      user.isBranch = true → kind = .bit → Lies m user r op kind

/-- A literal is in its slot, or in the command that uses it. -/
theorem Typed.lies_literal {m : s.Member label} {user : Instruction} {r : Nat} {op : Op}
    {kind : Width} (hliteral : m.Literal r kind op.offset)
    (harray : op.instruction.isTable = false)
    (hnone : r ∉ m.framing.visit.literals → op.offset = .unresolved → m.Lies user r op kind) :
    m.Lies user r op kind := by
  unfold Literal at hliteral
  split at hliteral
  · obtain ⟨hclaims, slot, hpins, hlt, heq⟩ := hliteral
    exact .cell heq (m.sees_of_temp ⟨hclaims, slot, hpins, hlt, rfl⟩).proper harray
  · exact hnone ‹_› hliteral

/-- The bit of a comparison may be named. -/
theorem Typed.proper_of_comparison {m : s.Member label} (h : m.Typed) {i address : Nat}
    (hcomparison : m.Comparison i (.absolute address)) : m.Proper (.bit, address) := by
  unfold Comparison at hcomparison
  split at hcomparison
  · cases hcomparison
  · rcases hcomparison with ⟨_, htemp⟩ | ⟨var, _, hcopy, hvar, heq⟩
    · exact (m.sees_of_temp htemp).proper
    · cases heq
      obtain ⟨target, _, htarget⟩ := Storage.copyTarget?_bit hcopy
      rw [← m.codeOf_final] at htarget
      exact h.proper_of_variable (m.simple_of_codeOf_final htarget nofun) rfl rfl hvar

/-- A comparison that is not before its branch is in its bit. -/
theorem Typed.lies_comparison {m : s.Member label} (h : m.Typed) {j r : Nat} {user : Instruction}
    {op : Op} {test : Model.CompareOp} {width : Width} {lhs rhs : Nat} (hy : m.look j = some user)
    (hr : r ∈ user.operands) (hop : m.final.body[r]? = some op)
    (hinstr : op.instruction = .compare test width lhs rhs) : m.Lies user r op .bit := by
  have hx := Flat.codeOf_getElem? hop
  rw [hinstr] at hx
  have hplaced := m.placement hop
  rw [hinstr] at hplaced
  have hcomparison : m.Comparison r op.offset := hplaced
  have harray : op.instruction.isTable = false := by
    rw [hinstr]
    rfl
  have hproper : ∀ address, op.offset = .absolute address → m.Proper (.bit, address) :=
    fun _ heq => h.proper_of_comparison (heq ▸ hcomparison)
  unfold Comparison at hcomparison
  rw [m.lastUse_eq hy hr hx nofun rfl] at hcomparison
  split at hcomparison
  · rename_i hfeeds
    obtain ⟨user', huser', rfl⟩ := Flat.exists_of_codeOf_getElem? ((m.look_eq j).symm.trans hy)
    simp only [Storage.feedsBranch, huser'] at hfeeds
    cases hbranch : user'.instruction with
    | branch => exact .flags (by rw [hinstr]; rfl) rfl rfl
    | _ =>
        rw [hbranch] at hfeeds
        cases hfeeds
  · rcases hcomparison with ⟨_, _, _, _, _, heq⟩ | ⟨_, _, _, _, heq⟩
    · exact .cell heq (hproper _ heq) harray
    · exact .cell heq (hproper _ heq) harray

/-- **Where the value of every operand is**: a cell of the file of its kind, the address of an
array, or nowhere for a literal and for a comparison that is left to the flags. -/
theorem Typed.lies {m : s.Member label} (h : m.Typed) {j r : Nat} {user : Instruction} {op : Op}
    {kind : Width} (hy : m.look j = some user) (hr : r ∈ user.operands)
    (hop : m.final.body[r]? = some op) (hkind : op.instruction.kind? = some kind) :
    m.Lies user r op kind := by
  have hplaced := m.placement hop
  have hx := Flat.codeOf_getElem? hop
  have htemp : ∀ {width : Width}, m.Temp r width op.offset →
      op.instruction.isTable = false → m.Lies user r op width := by
    rintro width ⟨hclaims, slot, hpins, hlt, heq⟩ harray
    exact .cell heq (m.sees_of_temp ⟨hclaims, slot, hpins, hlt, rfl⟩).proper harray
  cases hinstr : op.instruction with
  | register var | bit var =>
      rw [hinstr] at hx hplaced hkind
      cases hkind
      obtain ⟨address, hvar, heq⟩ := hplaced
      refine .cell heq (h.proper_of_variable (m.simple_of_codeOf_final hx nofun) rfl rfl hvar) ?_
      rw [hinstr]
      rfl
  | ram var | rom var =>
      rw [hinstr] at hplaced hkind
      cases hkind
      obtain ⟨_, address, _, _, heq⟩ := hplaced
      exact .base heq (by rw [hinstr]; rfl) rfl
  | portIn port =>
      have harray : op.instruction.isTable = false := by
        rw [hinstr]
        rfl
      rw [hinstr] at hplaced hkind
      cases hkind
      rcases hplaced with ⟨hslot, _⟩ | ⟨u, t, var, address, hreads, hvar, heq⟩
      · exact htemp hslot harray
      · exact .cell heq (h.proper_of_variable hreads.target rfl rfl hvar) harray
  | int value =>
      rw [hinstr] at hplaced hkind
      cases hkind
      refine Typed.lies_literal hplaced ?_ fun _ hnone => .int hnone hinstr rfl
      rw [hinstr]
      rfl
  | bool value =>
      rw [hinstr] at hx hplaced hkind
      cases hkind
      refine Typed.lies_literal hplaced ?_ fun hmem hnone => .bool hnone hinstr rfl fun hneeds => ?_
      · rw [hinstr]
        rfl
      · rw [m.codeOf_final] at hx
        exact hmem (Storage.mem_materialized m.framing.literals_eq ((m.look_eq j).symm.trans hy) hneeds hx)
  | compare test width lhs rhs =>
      rw [hinstr] at hkind
      cases hkind
      exact h.lies_comparison hy hr hop hinstr
  | math o width lhs rhs | element space array index =>
      rw [hinstr] at hplaced hkind
      cases hkind
      refine htemp hplaced ?_
      rw [hinstr]
      rfl
  | call function result =>
      rw [hinstr] at hplaced hkind
      cases result with
      | none => cases hkind
      | some width =>
          cases hkind
          refine htemp hplaced ?_
          rw [hinstr]
          rfl
  | _ =>
      rw [hinstr] at hkind
      cases hkind

/-- **A word that is used is a register or an immediate.**  A comparison is never asked for as a
word, since its kind is a bit. -/
theorem Typed.word_operand {m : s.Member label} (h : m.Typed) {j r : Nat} {user : Instruction}
    (hy : m.look j = some user) (hr : r ∈ user.operands) (hgives : Gives m.look r .word) :
    ∃ source, m.writing.operand r = .ok source ∧ ∀ cell ∈ source.cells, m.Proper cell := by
  obtain ⟨x, hx, hkind⟩ := hgives
  obtain ⟨op, hop, rfl⟩ := Flat.exists_of_codeOf_getElem? hx
  have hsource : ∀ source, Writing.source? op = some source → (∀ cell ∈ source.cells, m.Proper cell) →
      ∃ source, m.writing.operand r = .ok source ∧ ∀ cell ∈ source.cells, m.Proper cell :=
    fun _ hsource hcells => ⟨_, Writing.operand_eq_ok.mpr ⟨op, hop, hsource⟩, hcells⟩
  have hlies := h.lies hy hr hop hkind
  obtain ⟨instruction, offset, last, position⟩ := op
  cases hlies with
  | cell hoffset hproper harray =>
      cases hoffset
      refine hsource (.cell _) ?_ (List.forall_mem_singleton.mpr hproper)
      cases instruction with
      | ram | rom => cases harray
      | _ => rfl
  | base hoffset hinstr _ =>
      cases hoffset
      cases instruction with
      | ram | rom => exact hsource (.immediate _) rfl (List.forall_mem_nil _)
      | _ => cases hinstr
  | int hoffset hinstr _ =>
      cases hoffset
      cases hinstr
      exact hsource (.immediate _) rfl (List.forall_mem_nil _)
  | bool _ _ hbit _ => cases hbit
  | flags _ _ hbit => cases hbit

/-- **A truth value that is needed in the bit file is there.**  What has no cell is a literal that
no user wants in a cell, or a comparison right before its branch. -/
theorem Typed.bit_address {m : s.Member label} (h : m.Typed) {j r : Nat} {user x : Instruction}
    (hy : m.look j = some user) (hr : r ∈ user.operands) (hx : m.look r = some x)
    (hkind : x.kind? = some .bit) (hbool : ∀ value, x = .bool value → r ∈ user.truths)
    (hflags : Writing.flag? x = none ∨ user.isBranch = false) :
    ∃ address, m.writing.address r = .ok address ∧ m.Proper (.bit, address) := by
  obtain ⟨op, hop, rfl⟩ := Flat.exists_of_codeOf_getElem? hx
  cases h.lies hy hr hop hkind with
  | cell hoffset hproper _ => exact ⟨_, Writing.address_eq_ok.mpr ⟨op, hop, hoffset⟩, hproper⟩
  | base _ _ hword => cases hword
  | int _ _ hword => cases hword
  | bool _ hinstr _ hneeds => exact absurd (hbool _ hinstr) hneeds
  | flags hflag huser _ =>
      rcases hflags with hnone | hne
      · rw [hflag] at hnone
        cases hnone
      · rw [huser] at hne
        cases hne

theorem address_of_temp (m : s.Member label) {i : Nat} {op : Op} {width : Width}
    (hop : m.final.body[i]? = some op) (h : m.Temp i width op.offset) :
    ∃ address, m.writing.address i = .ok address ∧ m.Proper (width.file, address) := by
  obtain ⟨hclaims, slot, hpins, hlt, heq⟩ := h
  exact ⟨_, Writing.address_eq_ok.mpr ⟨op, hop, heq⟩,
    (m.sees_of_temp ⟨hclaims, slot, hpins, hlt, rfl⟩).proper⟩

/-- **A value that is passed to a slot of its kind** is moved by one line, or loaded if it is a
literal, and the line names the slot and the cell of the value. -/
theorem Typed.pass_sound {m : s.Member label} (h : m.Typed) {j r slot : Nat} {user : Instruction}
    {kind : Width} (hy : m.look j = some user) (hr : r ∈ user.operands)
    (hgives : Gives m.look r kind) (hslot : m.Proper (kind.file, slot))
    (hbranch : user.isBranch = false) :
    ∃ lines, (m.writing.pass slot r).Writes lines () ∧ Keeps m.Proper lines := by
  obtain ⟨x, hx, hkind⟩ := hgives
  obtain ⟨op, hop, rfl⟩ := Flat.exists_of_codeOf_getElem? hx
  have hpass : ∀ lines, Writing.passed? slot op = some lines → Keeps m.Proper lines →
      ∃ lines, (m.writing.pass slot r).Writes lines () ∧ Keeps m.Proper lines :=
    fun _ hpassed hkeeps => ⟨_, Writing.pass_writes.mpr ⟨op, hop, hpassed⟩, hkeeps⟩
  have hlies := h.lies hy hr hop hkind
  obtain ⟨instruction, offset, last, position⟩ := op
  cases hlies with
  | @cell address hoffset hproper harray =>
      cases hoffset
      refine hpass (Writing.copied (widthOf instruction) slot address) ?_ ?_
      · cases instruction with
        | ram | rom => cases harray
        | _ => rfl
      · rw [widthOf_eq_of_kind? hkind]
        exact keeps_copied hslot hproper
  | base hoffset hinstr hword =>
      cases hoffset
      cases hword
      cases instruction with
      | ram | rom => exact hpass _ rfl (keeps_single hslot rfl)
      | _ => cases hinstr
  | int hoffset hinstr hword =>
      cases hoffset
      cases hinstr
      cases hword
      exact hpass _ rfl (keeps_single hslot rfl)
  | bool hoffset hinstr hbit _ =>
      cases hoffset
      cases hinstr
      cases hbit
      exact hpass _ rfl (keeps_single hslot rfl)
  | flags _ huser _ =>
      rw [huser] at hbranch
      cases hbranch

/-- A local has an address in the window of the file of its slot. -/
theorem local_final (m : s.Member label) {name : String} {file : File} {slot : Nat}
    (h : m.framing.visit.scope.locals.find? name = some (.relative file slot)) :
    ∃ address, m.final.locals.find? name = some (.absolute address) ∧
      (m.final.window file).Holds address := by
  obtain ⟨offset, hfinal, hanchor⟩ := m.locals_final h
  obtain ⟨_, _, hsame, hlt⟩ := m.pinned.slots name _ h
  cases hsame
  obtain ⟨_, rfl⟩ := Storage.anchorOffset_relative hanchor
  refine ⟨_, hfinal, ?_⟩
  rw [← (m.window_final file).1]
  exact m.holds_address (Nat.lt_of_lt_of_le hlt (m.pins_le file))

/-- A symbol in a file has an address in the window of that file. -/
theorem symbol_final (m : s.Member label) {name : String} {symbol : Model.Symbol} {file : File}
    (hfind : m.source.symbols.find? name = some symbol)
    (hfile : Storage.fileOf? symbol.storage = some file) (hkeeps : m.source.KeepsResult) :
    ∃ address, m.final.locals.find? name = some (.absolute address) ∧
      (m.final.window file).Holds address := by
  obtain ⟨slot, hslot⟩ := m.framing.local_file hfind hfile hkeeps
  exact m.local_final hslot

/-- The result has an address in the window of the file of its type. -/
theorem result_final (m : s.Member label) {type : Model.ValueType}
    (h : m.source.returns = some type) :
    ∃ address, m.final.locals.find? Storage.resultName = some (.absolute address) ∧
      (m.final.window (resultWidth type).file).Holds address := by
  obtain ⟨slot, hslot⟩ := m.framing.result_file h
  have hfile : Storage.fileOf type = (resultWidth type).file := by
    cases type <;> rfl
  exact m.local_final (hfile ▸ hslot)

/-- A parameter has an address in the window of the file of its type. -/
theorem parameter_final (m : s.Member label) (htyped : m.source.WellTyped model)
    {p : Model.Parameter} (hp : p ∈ m.source.parameters) :
    ∃ address, m.final.locals.find? p.name = some (.absolute address) ∧
      (m.final.window (resultWidth p.type).file).Holds address := by
  have hreceives := htyped.receives p hp
  unfold Model.Function.Receives at hreceives
  cases hfind : m.source.symbols.find? p.name with
  | none =>
      rw [hfind] at hreceives
      exact hreceives.elim
  | some symbol =>
      rw [hfind] at hreceives
      obtain ⟨htype, harray, hstorage⟩ := hreceives
      have hstored := htyped.stored symbol
        (List.mem_map.mpr ⟨(p.name, symbol), Table.find?_eq_some.mp hfind, rfl⟩)
      have hfile : Storage.fileOf? symbol.storage = some (resultWidth p.type).file := by
        unfold Model.Symbol.Stored at hstored
        rw [htype, harray] at hstored
        cases hp : p.type with
        | bool =>
            rw [hp, if_pos rfl] at hstored
            rcases hstored with hbit | ⟨hrom, _⟩
            · rw [hbit]
              rfl
            · rw [hrom] at hstorage
              rcases hstorage with hstorage | hstorage <;> cases hstorage
        | _ =>
            rw [hp, if_neg nofun] at hstored
            rw [hstorage.resolve_right (hstored.resolve_left Bool.false_ne_true)]
            rfl
      exact m.symbol_final hfind hfile (Model.Function.keepsResult_of_unnamed htyped.unnamed)

/-- **The functions that are called** went through the phases too. -/
theorem Typed.exists_callee {m : s.Member label} (h : m.Typed) {i : Nat} {callee : String}
    {result : Option Width} (hx : m.look i = some (.call callee result)) :
    Nonempty (s.Member callee) ∧ callee ∈ m.final.calls.map (·.1) := by
  have hreached := m.call_reached h.reached hx
  exact ⟨s.exists_member (s.order_eq ▸ hreached), Flat.mem_calls_iff.mpr ⟨i, result, hx⟩⟩

/-- A parameter is passed to a function that is called. -/
theorem exists_call_of_parameter (m : s.Member label) {i value : Nat} {function name : String}
    (hx : m.look i = some (.parameter function name value)) :
    ∃ k result, m.look k = some (.call function result) := by
  obtain ⟨_, _, _, _, _, hpassing, _⟩ := m.exists_code
  obtain ⟨op, hop, hinstr⟩ := Flat.exists_of_codeOf_getElem? (m.simple_of_codeOf_final hx nofun)
  obtain ⟨call, hmem, result, hcall⟩ := hpassing.exists_call hop hinstr
  obtain ⟨k, hk⟩ := List.mem_iff_getElem?.mp hmem
  have hcode := Flat.codeOf_getElem? hk
  rw [hcall] at hcode
  exact ⟨k, result, m.final_of_simple hcode rfl nofun⟩

/-- The slot of a function that is called may be named. -/
theorem slot_of_callee (m : s.Member label) {callee name : String} (m' : s.Member callee)
    (hcalls : callee ∈ m.final.calls.map (·.1)) (i : Nat) {width : Width}
    (h : ∃ address, m'.final.locals.find? name = some (.absolute address) ∧
      (m'.final.window width.file).Holds address) :
    ∃ slot, m.writing.slot i callee name = .ok slot ∧ m.Proper (width.file, slot) := by
  obtain ⟨address, hfind, hholds⟩ := h
  exact ⟨address, Writing.slot_eq_ok.mpr ⟨m'.final, m'.final_eq, hfind⟩,
    .callee hcalls m'.final_eq hholds⟩

/-- **Every port has its address.** -/
theorem Typed.port_found {m : s.Member label} (h : m.Typed) {i : Nat} {var : Var}
    (hx : m.look i = some (.portIn var)) : ∃ port, m.writing.port i var = .ok port := by
  obtain ⟨l⟩ := m.exists_lineage
  obtain ⟨symbol, hstorage, ⟨name, rfl, hfind⟩ | ⟨module, name, rfl, hglobal⟩⟩ :=
    l.named_cases (m.simple_of_codeOf_final hx nofun) rfl
  · rw [l.origin_eq_source h.typed.filed] at hfind
    have hports := Storage.storage_of_pinLocals m.framing.pin_eq _ (Table.find?_eq_some.mp hfind)
    exact absurd hstorage hports.1
  · obtain ⟨_, symbol', _, _, _, _, _, haddress⟩ := Storage.exists_given
      (Storage.placeAll_of_placeVariables s.storage.cursors_eq)
      ⟨symbol, Storage.mem_placedGlobals hglobal, by rw [hstorage]; nofun⟩
    have hlayout : c.layout.addresses = s.storage.cursors.addresses :=
      congrArg Storage.Layout.addresses s.storage.layout_eq
    exact ⟨_, Writing.port_eq_ok.mpr (hlayout ▸ haddress)⟩

end Stages.Member

end Stackless
