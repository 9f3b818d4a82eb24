import Stackless.Proofs.OperandCells

/-!
# Typed programs compile

An emission is **sound** for a function if it ends well and the cells that its lines name
are `Proper`.  One lemma per instruction shows that the lines of every op of a typed
function are sound (`Typed.sound_op`), and so is the whole output.  That the lines of an op
name the cells of the op, and not only cells that some op of the function may name, is
`Writing.names_of_writes`; a typed function has operands of the kinds that this takes.
-/

namespace Stackless

open Flat (Op Instruction Offset File Width Var Gives Suits resultWidth mathWidth codeOf)
open Model (MathOp CompareOp)
open Assembly
open Assembly.Emission (writes_bind writes_silent_bind writes_command writes_line writes_pure)

namespace Assembly

/-- Operations that are not logical are done on words. -/
theorem exists_wordOp {w : Writing} {op : MathOp} (h : op.isLogical = false) (index : Nat) :
    ∃ o, w.wordOp index op = .ok o := by
  cases op with
  | logicalAnd | logicalOr | logicalNot => cases h
  | _ => exact ⟨_, rfl⟩

/-- Operations that are logical are done on bits, and so are those that change a bit. -/
theorem exists_bitOp {w : Writing} {op : MathOp}
    (h : op.isLogical = true ∨ op.changes .bit = true) (index : Nat) :
    ∃ o, w.bitOp index op = .ok o := by
  cases op with
  | and | or | logicalAnd | logicalOr | logicalNot => exact ⟨_, rfl⟩
  | _ => rcases h with h | h <;> cases h

theorem isLogical_of_mathWidth {op : MathOp} {width : Width} (h : width = mathWidth op) :
    op.isLogical = decide (width = .bit) := by
  subst h
  unfold mathWidth
  cases op.isLogical <;> rfl

end Assembly

namespace Stages.Member

variable {model : Model.Program} {c : Compilation} {s : Stages model c} {label : String}
variable {m : s.Member label}

/-- An emission that ends well and names proper cells only. It says both that nothing fails and what
may be touched, so that the two are proved together. -/
def Sound (m : s.Member label) (e : Emission Unit) : Prop :=
  ∃ lines, e.Writes lines () ∧ Keeps m.Proper lines

namespace Sound

theorem seq {e e' : Emission Unit} (h : m.Sound e) (h' : m.Sound e') :
    m.Sound (e >>= fun _ => e') := by
  obtain ⟨first, hfirst, hkeeps⟩ := h
  obtain ⟨rest, hrest, hkeeps'⟩ := h'
  exact ⟨first ++ rest, writes_bind.mpr ⟨first, (), rest, hfirst, hrest, rfl⟩,
    keeps_append.mpr ⟨hkeeps, hkeeps'⟩⟩

theorem of_silent {α : Type} {x : Except Failure α} {a : α} {f : α → Emission Unit}
    (hx : x = .ok a) (h : m.Sound (f a)) : m.Sound (Emission.silent x >>= f) := by
  obtain ⟨lines, hlines, hkeeps⟩ := h
  exact ⟨lines, writes_silent_bind.mpr ⟨a, hx, hlines⟩, hkeeps⟩

theorem command {command : Command} (h : ∀ cell ∈ command.cells, m.Proper cell) :
    m.Sound (Emission.command command) :=
  ⟨_, writes_command.mpr rfl, keeps_cons.mpr ⟨h, keeps_nil⟩⟩

theorem bare {command : Command} (h : command.cells = []) : m.Sound (Emission.command command) :=
  .command (by simp [h])

theorem line {l : Line} (h : l.cells = []) : m.Sound (Emission.line l) :=
  ⟨_, writes_line.mpr rfl, keeps_cons.mpr ⟨by simp [h], keeps_nil⟩⟩

theorem pure : m.Sound (Pure.pure ()) :=
  ⟨[], writes_pure.mpr ⟨rfl, rfl⟩, keeps_nil⟩

end Sound

/-- A literal is sound. -/
theorem sound_literal {i : Nat} {op : Op} {width : Width} {use : Nat → Command}
    (hliteral : m.Literal i width op.offset)
    (huse : ∀ address, (use address).cells = [(width.file, address)]) :
    m.Sound (match op.offset.absolute? with
      | some address => Emission.command (use address)
      | none => pure ()) := by
  unfold Literal at hliteral
  split at hliteral
  · have hproper := hliteral
    obtain ⟨_, slot, _, _, heq⟩ := hliteral
    rw [heq] at hproper ⊢
    refine Sound.command ?_
    rw [huse]
    exact List.forall_mem_singleton.mpr (m.sees_of_temp hproper).proper
  · rw [hliteral]
    exact .pure

section Operations

variable {i : Nat} (h : m.Typed)

include h

/-- **A conditional jump.** -/
theorem Typed.sound_branch {expected : Bool} {condition : Nat} {target : Flat.Target}
    (hy : m.look i = some (.branch expected condition target)) :
    m.Sound (m.writing.branch expected condition target) := by
  obtain ⟨x, hx, hkind⟩ : Gives m.look condition .bit := h.suits hy
  obtain ⟨op, hop, rfl⟩ := Flat.exists_of_codeOf_getElem? hx
  cases hflag : Writing.flag? op.instruction with
  | some comparison =>
      refine ⟨[.command (.jumpIf (if expected then comparison else negated comparison) target.marker),
        .blank], Writing.branch_writes.mpr ⟨op, hop, ?_⟩, ?_⟩
      · rw [hflag]
      · simp [Line.cells, Command.cells]
  | none =>
      obtain ⟨address, haddress, hproper⟩ := h.bit_address hy (by simp [Instruction.operands]) hx
        hkind (fun _ _ => by simp [Instruction.truths]) (.inl hflag)
      refine ⟨[.command (.bit .not truth address),
        .command (.jumpIf (if expected then .eq else .ne) target.marker), .blank],
        Writing.branch_writes.mpr ⟨op, hop, ?_⟩, ?_⟩
      · rw [hflag]
        exact ⟨address, haddress, rfl⟩
      · simpa [Line.cells, Command.cells] using ⟨Compilation.Proper.truth, hproper⟩

/-- A truth value that an instruction needs in the bit file. -/
theorem Typed.truth_operand {r : Nat} {user : Instruction} (hy : m.look i = some user)
    (hr : r ∈ user.operands) (hneeds : r ∈ user.truths) (hgives : Gives m.look r .bit)
    (hbranch : user.isBranch = false) :
    ∃ address, m.writing.address r = .ok address ∧ m.Proper (.bit, address) := by
  obtain ⟨x, hx, hkind⟩ := hgives
  exact h.bit_address hy hr hx hkind (fun _ _ => hneeds) (.inr hbranch)

/-- **A comparison.** -/
theorem Typed.sound_compare {op : Op} {test : CompareOp} {width : Width} {lhs rhs : Nat}
    (hop : m.final.body[i]? = some op) (hinstr : op.instruction = .compare test width lhs rhs) :
    m.Sound (m.writing.compare i test width lhs rhs) := by
  have hy := Flat.codeOf_getElem? hop
  rw [hinstr] at hy
  obtain ⟨hleft, hright⟩ : Gives m.look lhs width ∧ Gives m.look rhs width := h.suits hy
  have hkept : Keeps m.Proper (Writing.kept test op) := by
    refine keeps_kept fun address haddress => ?_
    have hplaced := m.placement hop
    rw [hinstr, haddress] at hplaced
    exact h.proper_of_comparison hplaced
  cases width with
  | word =>
      obtain ⟨left, hleft, hcells⟩ := h.word_operand hy (by simp [Instruction.operands]) hleft
      obtain ⟨right, hright, hcells'⟩ := h.word_operand hy (by simp [Instruction.operands]) hright
      refine ⟨_, Writing.compare_writes.mpr ⟨op, hop, left, right, hleft, hright, rfl⟩, ?_⟩
      refine keeps_append.mpr ⟨keeps_placed .register hcells fun address hproper => ?_, hkept⟩
      exact List.forall_mem_cons.mpr ⟨hproper, hcells'⟩
  | bit =>
      obtain ⟨left, hleft, hproper⟩ := h.truth_operand hy (by simp [Instruction.operands])
        (by simp [Instruction.truths]) hleft rfl
      obtain ⟨right, hright, hproper'⟩ := h.truth_operand hy (by simp [Instruction.operands])
        (by simp [Instruction.truths]) hright rfl
      refine ⟨_, Writing.compare_writes.mpr ⟨op, hop, left, right, hleft, hright, rfl⟩, ?_⟩
      refine keeps_cons.mpr ⟨?_, hkept⟩
      simpa [Line.cells, Command.cells] using ⟨hproper, hproper'⟩

/-- **An operation on words.** -/
theorem Typed.sound_mathWord {op : Op} {o : MathOp} {lhs : Nat} {rhs : Option Nat}
    (hop : m.final.body[i]? = some op) (hinstr : op.instruction = .math o .word lhs rhs) :
    m.Sound (m.writing.mathWord i o lhs rhs) := by
  have hy := Flat.codeOf_getElem? hop
  rw [hinstr] at hy
  have hplaced := m.placement hop
  rw [hinstr] at hplaced
  obtain ⟨target, htarget, hproper⟩ := m.address_of_temp hop hplaced
  have hsuits := h.suits hy
  have hwidth : Width.word = mathWidth o := by
    cases rhs with
    | none => exact hsuits.2.1
    | some rhs => exact hsuits.2.1
  obtain ⟨wordOp, hwordOp⟩ := exists_wordOp (isLogical_of_mathWidth hwidth) i
  have hlhs : Gives m.look lhs .word := by
    cases rhs with
    | none => exact hsuits.2.2
    | some rhs => exact hsuits.2.2.1
  obtain ⟨left, hleft, hcells⟩ := h.word_operand hy (by simp [Instruction.operands]) hlhs
  obtain ⟨right, hright, hcells'⟩ : ∃ right, m.writing.Takes target rhs right ∧
      ∀ cell ∈ right.cells, m.Proper cell := by
    cases rhs with
    | none => exact ⟨_, rfl, List.forall_mem_singleton.mpr hproper⟩
    | some rhs => exact h.word_operand hy (by simp [Instruction.operands]) hsuits.2.2.2
  exact ⟨_, Writing.mathWord_writes.mpr ⟨wordOp, target, left, right, hwordOp, htarget, hleft,
    hright, rfl⟩, keeps_reckoned hproper hcells hcells'⟩

/-- **An operation on bits.** -/
theorem Typed.sound_mathBit {op : Op} {o : MathOp} {lhs : Nat} {rhs : Option Nat}
    (hop : m.final.body[i]? = some op) (hinstr : op.instruction = .math o .bit lhs rhs) :
    m.Sound (m.writing.mathBit i o lhs rhs) := by
  have hy := Flat.codeOf_getElem? hop
  rw [hinstr] at hy
  have hplaced := m.placement hop
  rw [hinstr] at hplaced
  obtain ⟨target, htarget, hproper⟩ := m.address_of_temp hop hplaced
  have hsuits := h.suits hy
  have hoperand : ∀ r ∈ (Instruction.math o .bit lhs rhs).operands, Gives m.look r .bit →
      ∃ address, m.writing.address r = .ok address ∧ m.Proper (.bit, address) := fun r hr hgives =>
    h.truth_operand hy hr (by simpa [Instruction.operands, Instruction.truths] using hr) hgives rfl
  cases rhs with
  | none =>
      obtain ⟨_, hwidth, hlhs⟩ := hsuits
      obtain ⟨bitOp, hbitOp⟩ := exists_bitOp (.inl (isLogical_of_mathWidth hwidth)) i
      obtain ⟨left, hleft, hproper'⟩ := hoperand lhs (by simp [Instruction.operands]) hlhs
      refine ⟨_, Writing.mathBit_writes.mpr ⟨bitOp, target, left, hbitOp, htarget, hleft, rfl⟩, ?_⟩
      refine keeps_cons.mpr ⟨?_, keeps_nil⟩
      simpa [Line.cells, Command.cells] using ⟨hproper, hproper'⟩
  | some rhs =>
      obtain ⟨_, hwidth, hlhs, hrhs⟩ := hsuits
      obtain ⟨bitOp, hbitOp⟩ := exists_bitOp (.inl (isLogical_of_mathWidth hwidth)) i
      obtain ⟨left, hleft, hproper'⟩ := hoperand lhs (by simp [Instruction.operands]) hlhs
      obtain ⟨right, hright, hproper''⟩ := hoperand rhs (by simp [Instruction.operands]) hrhs
      exact ⟨_, Writing.mathBit_writes.mpr ⟨bitOp, target, left, hbitOp, htarget, hleft, right,
        hright, rfl⟩, keeps_joined hproper hproper' hproper''⟩

/-- The place of an assignment has an address, and if it is no port, one in the file of its
width. -/
theorem Typed.place_address {op : Op} {t : Nat} {width : Width} (hop : m.final.body[t]? = some op)
    (hwidth : op.instruction.placeWidth? = some width) :
    ∃ address, m.writing.address t = .ok address ∧
      ((∀ var, op.instruction ≠ .portOut var) → m.Proper (width.file, address)) := by
  have hx := Flat.codeOf_getElem? hop
  have hplaced := m.placement hop
  cases hinstr : op.instruction with
  | register var | bit var =>
      rw [hinstr] at hx hplaced hwidth
      cases hwidth
      obtain ⟨address, hvar, heq⟩ := hplaced
      refine ⟨address, Writing.address_eq_ok.mpr ⟨op, hop, heq⟩, fun _ => ?_⟩
      exact h.proper_of_variable (m.simple_of_codeOf_final hx nofun) rfl rfl hvar
  | address array index =>
      rw [hinstr] at hplaced hwidth
      cases hwidth
      obtain ⟨address, haddress, hproper⟩ := m.address_of_temp hop hplaced
      exact ⟨address, haddress, fun _ => hproper⟩
  | portOut var =>
      rw [hinstr] at hplaced
      obtain ⟨_, address, _, _, heq⟩ := hplaced
      exact ⟨address, Writing.address_eq_ok.mpr ⟨op, hop, heq⟩, fun hport => absurd rfl (hport var)⟩
  | _ =>
      rw [hinstr] at hwidth
      cases hwidth

/-- **An assignment to a truth variable.** -/
theorem Typed.sound_assignBit {change : Option MathOp} {target value : Nat}
    (hy : m.look i = some (.assign change .bit target value)) :
    m.Sound (m.writing.assignBit i change target value) := by
  obtain ⟨⟨x, hx, hkind⟩, hchange, place, hplace, hwidth⟩ := h.suits hy
  obtain ⟨op, hop, rfl⟩ := Flat.exists_of_codeOf_getElem? hplace
  obtain ⟨source, hsource, rfl⟩ := Flat.exists_of_codeOf_getElem? hx
  obtain ⟨address, haddress, hproper⟩ := h.place_address hop hwidth
  have hproper := hproper fun var heq => by
    rw [heq] at hwidth
    cases hwidth
  have hr : value ∈ (Instruction.assign change .bit target value).operands := by
    simp [Instruction.operands]
  cases change with
  | none =>
      cases hliteral : Writing.truthLiteral? source.instruction with
      | some literal =>
          refine ⟨[.command (.setBit address literal)], ?_, keeps_single hproper rfl⟩
          refine Writing.assignBit_writes.mpr ⟨address, source, haddress, hsource, ?_⟩
          simp [hliteral]
      | none =>
          obtain ⟨from', hfrom, hproper'⟩ := h.bit_address hy hr hx hkind (fun b hb => by
            rw [hb] at hliteral
            cases hliteral) (.inr rfl)
          refine ⟨Writing.copied .bit address from', ?_, keeps_copied hproper hproper'⟩
          refine Writing.assignBit_writes.mpr ⟨address, source, haddress, hsource, ?_⟩
          simpa [hliteral] using ⟨from', hfrom, rfl⟩
  | some o =>
      obtain ⟨bitOp, hbitOp⟩ := exists_bitOp (.inr hchange) i
      obtain ⟨from', hfrom, hproper'⟩ := h.bit_address hy hr hx hkind
        (fun _ _ => by simp [Instruction.truths]) (.inr rfl)
      refine ⟨[.command (.bit bitOp address from')], ?_, ?_⟩
      · exact Writing.assignBit_writes.mpr ⟨address, source, haddress, hsource, bitOp, from', hbitOp,
          hfrom, rfl⟩
      · simpa [Line.cells, Command.cells] using ⟨hproper, hproper'⟩

/-- **An assignment of a word.** -/
theorem Typed.sound_assignWord {change : Option MathOp} {target value : Nat}
    (hy : m.look i = some (.assign change .word target value)) :
    m.Sound (m.writing.assignWord i change target value) := by
  obtain ⟨hvalue, hchange, place, hplace, hwidth⟩ := h.suits hy
  obtain ⟨op, hop, rfl⟩ := Flat.exists_of_codeOf_getElem? hplace
  obtain ⟨address, haddress, hproper⟩ := h.place_address hop hwidth
  obtain ⟨source, hsource, hcells⟩ := h.word_operand hy (by simp [Instruction.operands]) hvalue
  obtain ⟨wordOp, hwordOp⟩ : ∃ o, change.mapM (m.writing.wordOp i) = .ok o := by
    cases change with
    | none => exact ⟨none, rfl⟩
    | some o =>
        have hlogical : o.isLogical = false := by
          cases o with
          | logicalAnd | logicalOr | logicalNot => cases hchange
          | _ => rfl
        obtain ⟨wordOp, hwordOp⟩ := exists_wordOp hlogical i
        refine ⟨some wordOp, ?_⟩
        rw [Option.mapM_some, hwordOp]
        rfl
  obtain ⟨kind, hkind⟩ : ∃ kind, Writing.place? op.instruction = some kind := by
    cases hinstr : op.instruction with
    | register | address | portOut => exact ⟨_, rfl⟩
    | _ =>
        rw [hinstr] at hwidth
        cases hwidth
  refine ⟨_, Writing.assignWord_writes.mpr ⟨wordOp, source, op, kind, address, hwordOp, hsource, hop,
    hkind, haddress, rfl⟩, keeps_assigned .register hcells fun hport => hproper fun var heq => ?_⟩
  rw [heq] at hkind
  exact hport (Option.some.inj hkind).symm

/-- **The address of an array element.** -/
theorem Typed.sound_elementAddress {op : Op} {array index : Nat}
    (hop : m.final.body[i]? = some op) (htemp : m.Temp i .word op.offset)
    (hr : index ∈ op.instruction.operands)
    (hsuits : Gives m.look index .word ∧ ∃ base, m.look array = some base ∧ base.isBase = true) :
    m.Sound (m.writing.elementAddress i array index) := by
  have hy := Flat.codeOf_getElem? hop
  obtain ⟨hindex, base, hbase, hisBase⟩ := hsuits
  obtain ⟨target, htarget, hproper⟩ := m.address_of_temp hop htemp
  obtain ⟨source, hsource, hcells⟩ := h.word_operand hy hr hindex
  obtain ⟨op', hop', rfl⟩ := Flat.exists_of_codeOf_getElem? hbase
  have hplaced := m.placement hop'
  obtain ⟨address, haddress, hcells'⟩ : ∃ address, m.writing.address array = .ok address ∧
      ∀ cell ∈ (Writing.baseOf op'.instruction address).cells, m.Proper cell := by
    cases hinstr : op'.instruction with
    | register var =>
        rw [hinstr] at hplaced hbase
        obtain ⟨address, hvar, heq⟩ := hplaced
        refine ⟨address, Writing.address_eq_ok.mpr ⟨op', hop', heq⟩, ?_⟩
        refine List.forall_mem_singleton.mpr ?_
        exact h.proper_of_variable (m.simple_of_codeOf_final hbase nofun) rfl rfl hvar
    | ram var | rom var =>
        rw [hinstr] at hplaced
        obtain ⟨_, address, _, _, heq⟩ := hplaced
        exact ⟨address, Writing.address_eq_ok.mpr ⟨op', hop', heq⟩, List.forall_mem_nil _⟩
    | _ =>
        rw [hinstr] at hisBase
        cases hisBase
  refine ⟨_, Writing.elementAddress_writes.mpr ⟨target, source, op', address, htarget, hsource, hop',
    haddress, rfl⟩, ?_⟩
  refine keeps_cons.mpr ⟨List.forall_mem_cons.mpr ⟨hproper, hcells⟩, keeps_cons.mpr ⟨?_, keeps_nil⟩⟩
  exact List.forall_mem_cons.mpr ⟨hproper, hcells'⟩

/-- **A read of an array element.** -/
theorem Typed.sound_element {op : Op} {space : Flat.Space} {array index : Nat}
    (hop : m.final.body[i]? = some op) (hinstr : op.instruction = .element space array index) :
    m.Sound (m.writing.opLines i op) := by
  have hy := Flat.codeOf_getElem? hop
  rw [hinstr] at hy
  have hplaced := m.placement hop
  rw [hinstr] at hplaced
  obtain ⟨target, htarget, hproper⟩ := m.address_of_temp hop hplaced
  have haddress := h.sound_elementAddress hop hplaced (by simp [hinstr, Instruction.operands])
    (h.suits hy)
  rw [Writing.opLines, hinstr]
  refine .of_silent htarget (haddress.seq (.command ?_))
  exact List.forall_mem_cons.mpr ⟨hproper, List.forall_mem_singleton.mpr hproper⟩

/-- **A port that is read.** -/
theorem Typed.sound_portIn {op : Op} {var : Var} (hop : m.final.body[i]? = some op)
    (hinstr : op.instruction = .portIn var) : m.Sound (m.writing.opLines i op) := by
  have hy := Flat.codeOf_getElem? hop
  rw [hinstr] at hy
  obtain ⟨port, hport⟩ := h.port_found hy
  have hplaced := m.placement hop
  rw [hinstr] at hplaced
  obtain ⟨address, haddress, hproper⟩ : ∃ address, m.writing.address i = .ok address ∧
      m.Proper (.register, address) := by
    rcases hplaced with ⟨htemp, _⟩ | ⟨_, _, _, address, hreads, hvar, heq⟩
    · exact m.address_of_temp hop htemp
    · exact ⟨address, Writing.address_eq_ok.mpr ⟨op, hop, heq⟩,
        h.proper_of_variable hreads.target rfl rfl hvar⟩
  rw [Writing.opLines, hinstr]
  refine .of_silent hport (.of_silent haddress (.command ?_))
  simpa [Command.cells] using hproper

/-- **A call.** -/
theorem Typed.sound_call {op : Op} {callee : String} {result : Option Width}
    (hop : m.final.body[i]? = some op) (hinstr : op.instruction = .call callee result) :
    m.Sound (m.writing.opLines i op) := by
  have hy := Flat.codeOf_getElem? hop
  rw [hinstr] at hy
  have hplaced := m.placement hop
  rw [hinstr] at hplaced
  obtain ⟨⟨m'⟩, hcalls⟩ := h.exists_callee hy
  rw [Writing.opLines, hinstr]
  refine Sound.seq (.bare rfl) ?_
  cases result with
  | none => exact .pure
  | some width =>
      obtain ⟨source, type, hsource, hreturns, rfl⟩ := h.suits hy
      obtain rfl : m'.source = source := Except.ok.inj (m'.source_eq.symm.trans hsource)
      obtain ⟨target, htarget, hproper⟩ := m.address_of_temp hop hplaced
      obtain ⟨slot, hslot, hproper'⟩ := m.slot_of_callee m' hcalls i (m'.result_final hreturns)
      refine .of_silent htarget (.of_silent hslot ?_)
      exact ⟨_, Writing.copy_writes.mpr rfl, keeps_copied hproper hproper'⟩

/-- **An argument.** -/
theorem Typed.sound_parameter {op : Op} {callee name : String} {value : Nat}
    (hop : m.final.body[i]? = some op) (hinstr : op.instruction = .parameter callee name value) :
    m.Sound (m.writing.opLines i op) := by
  have hy := Flat.codeOf_getElem? hop
  rw [hinstr] at hy
  obtain ⟨_, _, hcall⟩ := m.exists_call_of_parameter hy
  obtain ⟨⟨m'⟩, hcalls⟩ := h.exists_callee hcall
  obtain ⟨source, hsource, p, hp, rfl, hgives⟩ := h.suits hy
  obtain rfl : m'.source = source := Except.ok.inj (m'.source_eq.symm.trans hsource)
  obtain ⟨slot, hslot, hproper⟩ := m.slot_of_callee m' hcalls i
    (m'.parameter_final (m'.source_typed h.typed) hp)
  rw [Writing.opLines, hinstr]
  refine .of_silent hslot ?_
  exact h.pass_sound hy (by simp [Instruction.operands]) hgives hproper rfl

/-- **A return.** -/
theorem Typed.sound_ret {op : Op} {value : Option Nat} (hop : m.final.body[i]? = some op)
    (hinstr : op.instruction = .ret value) : m.Sound (m.writing.opLines i op) := by
  have hy := Flat.codeOf_getElem? hop
  rw [hinstr] at hy
  have hend : m.Sound (Emission.command (.ret m.writing.function.isr) >>= fun _ =>
      Emission.line .blank) := Sound.seq (.bare rfl) (.line rfl)
  rw [Writing.opLines, hinstr]
  cases value with
  | none => exact hend
  | some value =>
      obtain ⟨type, hreturns, hgives⟩ := h.suits hy
      obtain ⟨address, hfind, hholds⟩ := m.result_final hreturns
      have hslot : m.writing.slot i m.writing.function.label Storage.resultName = .ok address := by
        refine Writing.slot_eq_ok.mpr ⟨m.final, ?_, hfind⟩
        rw [show m.writing.function.label = label from m.label_final]
        exact m.final_eq
      have hpass := h.pass_sound hy (by simp [Instruction.operands]) hgives (.own hholds) rfl
      exact .of_silent hslot (Sound.seq hpass hend)

/-- **The timer.** -/
theorem Typed.sound_timer {op : Op} {value : Nat} (hop : m.final.body[i]? = some op)
    (hinstr : op.instruction = .timer value) : m.Sound (m.writing.opLines i op) := by
  have hy := Flat.codeOf_getElem? hop
  rw [hinstr] at hy
  obtain ⟨source, hsource, hcells⟩ := h.word_operand hy (by simp [Instruction.operands]) (h.suits hy)
  rw [Writing.opLines, hinstr]
  exact .of_silent hsource (.command hcells)

/-- **The lines of every op of a typed function are sound**: the emission does not fail, and names
proper cells only. One case for each kind of instruction, from what `Typed` says of its operands. -/
theorem Typed.sound_op {op : Op} (hop : m.final.body[i]? = some op) :
    m.Sound (m.writing.opLines i op) := by
  have hy := Flat.codeOf_getElem? hop
  have hplaced := m.placement hop
  cases hinstr : op.instruction with
  | portIn var => exact h.sound_portIn hop hinstr
  | element space array index => exact h.sound_element hop hinstr
  | call callee result => exact h.sound_call hop hinstr
  | parameter callee name value => exact h.sound_parameter hop hinstr
  | ret value => exact h.sound_ret hop hinstr
  | timer value => exact h.sound_timer hop hinstr
  | int value =>
      rw [hinstr] at hplaced
      rw [Writing.opLines, hinstr]
      exact sound_literal hplaced fun _ => rfl
  | bool value =>
      rw [hinstr] at hplaced
      rw [Writing.opLines, hinstr]
      exact sound_literal hplaced fun _ => rfl
  | branch expected condition target =>
      rw [hinstr] at hy
      rw [Writing.opLines, hinstr]
      exact h.sound_branch hy
  | compare test width lhs rhs =>
      rw [Writing.opLines, hinstr]
      exact h.sound_compare hop hinstr
  | math o width lhs rhs =>
      rw [Writing.opLines, hinstr]
      cases width with
      | word => exact h.sound_mathWord hop hinstr
      | bit => exact h.sound_mathBit hop hinstr
  | assign change width target value =>
      rw [hinstr] at hy
      rw [Writing.opLines, hinstr]
      cases width with
      | word => exact (h.sound_assignWord hy).seq (.line rfl)
      | bit => exact (h.sound_assignBit hy).seq (.line rfl)
  | address array index =>
      have hsuits := h.suits hy
      rw [hinstr] at hplaced hsuits
      rw [Writing.opLines, hinstr]
      exact h.sound_elementAddress hop hplaced (by simp [hinstr, Instruction.operands]) hsuits
  | marker name =>
      rw [Writing.opLines, hinstr]
      exact .line rfl
  | jump | level | halt | pause | reset | restart | nop =>
      rw [Writing.opLines, hinstr]
      exact .bare rfl
  | removed | register | bit | ram | rom | portOut =>
      rw [Writing.opLines, hinstr]
      exact .pure

end Operations

end Stages.Member

/-- The program after simplification. -/
def Model.Program.simplified? (model : Model.Program) : Option Flat.Program :=
  (Flat.Program.ofModel model).toOption.bind (·.simplify.toOption)

/-- No op of the simplified program uses an op that was taken out. -/
def Model.Program.Intact (model : Model.Program) : Prop :=
  ∃ simple, model.simplified? = some simple ∧ ∀ f ∈ simple.values, Flat.Intact f.body

instance (model : Model.Program) : Decidable model.Intact :=
  decidable_of_iff
    (model.simplified?.map (fun simple => decide (∀ f ∈ simple.values, Flat.Intact f.body)) = some true)
    (by simp [Model.Program.Intact])

/-- The functions of an intact program are intact. -/
theorem Stages.Member.intact {model : Model.Program} {c : Compilation} {s : Stages model c}
    {label : String} (m : s.Member label) (h : model.Intact) : Flat.Intact m.simple.body := by
  obtain ⟨simple, hsimple, hall⟩ := h
  obtain ⟨flat, hflat, hsimple⟩ := Option.bind_eq_some_iff.mp hsimple
  rw [toOption_eq_some, s.flat_eq] at hflat
  cases hflat
  rw [toOption_eq_some, s.simple_eq] at hsimple
  cases hsimple
  exact hall m.simple (List.mem_map.mpr ⟨(label, m.simple), Table.find?_eq_some.mp m.simple_eq, rfl⟩)

/-- **Typed programs compile.**  Take a typed program that is accepted and in which no op uses one
that was taken out.  Its assembly can be written, and every cell that a section names is a cell of
that file: scratch, of the window of the function, of the window of a function that it calls, or a
global.  Op by op, the lines are written and stand in the section, and they name the cells that the
allocator gave to the op and to its operands, the slot that the op passes a value to or takes one
from, and the scratch cell that it borrows, all of these and no others; only a truth value that is
where it is to go is not copied. -/
theorem typed_programs_compile {model : Model.Program} {c : Compilation}
    (hbuild : build model = .ok c) (htyped : model.WellTyped) (hintact : model.Intact) :
    (compile model).outcome = .ok () ∧ ∀ label ∈ c.layout.order,
      ∃ F, c.program.find? label = some F ∧
        Keeps (c.Proper model F) (sectionLines c.program c.layout.addresses label) ∧
        sectionLines c.program c.layout.addresses label <:+: (compile model).lines ∧
        ∀ (i : Nat) op, F.body[i]? = some op → ∃ lines,
          (Writing.opLines ⟨c.program, c.layout.addresses, F⟩ i op).Writes lines () ∧
          lines <:+: sectionLines c.program c.layout.addresses label ∧
          Writing.Names ⟨c.program, c.layout.addresses, F⟩ i op lines := by
  obtain ⟨s⟩ := stages_of_build hbuild
  have htypedAt : ∀ label ∈ c.layout.order, ∃ m : s.Member label, m.Typed := by
    intro label hlabel
    obtain ⟨m⟩ := s.exists_member (s.order_eq ▸ hlabel)
    exact ⟨m, htyped, hlabel, m.intact hintact⟩
  have hok : (compile model).outcome = .ok () := by
    refine (compile_writes.mpr ⟨c, hbuild, fun label hlabel => ?_, rfl⟩).outcome_eq
    obtain ⟨m, h⟩ := htypedAt label hlabel
    refine ⟨m.final, m.final_eq, fun i op hop => ?_⟩
    obtain ⟨_, hwrites, _⟩ := h.sound_op hop
    exact hwrites.outcome_eq
  refine ⟨hok, fun label hlabel => ?_⟩
  obtain ⟨m, h⟩ := htypedAt label hlabel
  have hsection : sectionLines c.program c.layout.addresses label =
      headingLines label ++ m.writing.written 0 m.final.body := by
    rw [sectionLines, m.final_eq]
    rfl
  refine ⟨m.final, m.final_eq, ?_, infix_compile hok hbuild hlabel, fun i op hop => ?_⟩
  · rw [hsection]
    refine keeps_append.mpr ⟨by simp [headingLines, Line.cells], fun l hl => ?_⟩
    obtain ⟨i, op, hop, hl⟩ := Writing.mem_written.mp hl
    rw [Nat.zero_add] at hl
    obtain ⟨lines, hwrites, hkeeps⟩ := h.sound_op hop
    exact hkeeps l (hwrites.lines_eq ▸ hl)
  · obtain ⟨lines, hwrites, _⟩ := h.sound_op hop
    have hinfix := @Writing.infix_written m.writing 0 m.final.body i op hop
    rw [Nat.zero_add, hwrites.lines_eq] at hinfix
    have hsuits := h.suits (Flat.codeOf_getElem? hop)
    refine ⟨lines, hwrites, ?_, Writing.names_of_writes hop hsuits hwrites⟩
    rw [hsection]
    exact hinfix.trans (List.suffix_append _ _).isInfix

/-- A program whose entry keeps a scaled reading of a port while an alarm is armed. -/
def scaledLog : Model.Program :=
  let entry : Model.Function :=
    (({ label := "demo.main" } : Model.Function).addSymbol "k" .word).withBody
      [.forever [.assign (.var "k") none (.call "scale" [.var "demo.dial", .bool true]),
        .assign (.var "demo.armed") (some .or) (.compare .gt (.var "k") (.int 9)),
        .ifElse (.binary .logicalAnd (.var "demo.armed") (.bool true))
          (.assign (.index "demo.log" (.var "k")) (some .add) (.var "demo.dial")) none,
        .timer (.binary .mul (.var "k") (.int 3))]]
  let scale : Model.Function :=
    ((({ label := "demo.scale", returns := some .int } : Model.Function).addParameter "x" .int
      ).addParameter "twice" .bool).withBody
        [.ifElse (.var "twice") (.ret (some (.binary .shl (.var "x") (.int 1)))) none,
          .ret (some (.unary .neg (.var "x")))]
  let demo : Model.Module :=
    ((((({} : Model.Module).addSymbol "dial" (.portAt 6)).addSymbol "armed" .flag).addSymbol "log"
      (.ramArray 16)).addFunction entry).addFunction scale
  { name := "demo", modules := Table.empty.insert "demo" demo }

/-- `scaledLog` is typed and intact.  Its callee names proper cells only, and the op that doubles the
parameter writes two lines, which name the cell of the op and that of the parameter. -/
theorem typed_programs_compile_scaledLog :
    scaledLog.WellTyped ∧ scaledLog.Intact ∧ (compile scaledLog).outcome = .ok () ∧
      ∃ c F op lines, build scaledLog = .ok c ∧ c.program.find? "demo.scale" = some F ∧
        Keeps (c.Proper scaledLog F) (sectionLines c.program c.layout.addresses "demo.scale") ∧
        F.body[5]? = some op ∧
        (Writing.opLines ⟨c.program, c.layout.addresses, F⟩ 5 op).Writes lines () ∧
        lines = [.command (.move 6 (.cell 8)), .command (.word .shl 6 (.immediate 1))] ∧
        lines <:+: (compile scaledLog).lines ∧
        Writing.Names ⟨c.program, c.layout.addresses, F⟩ 5 op lines ∧
        Writing.cells ⟨c.program, c.layout.addresses, F⟩ 5 op = [(.register, 6), (.register, 8)] := by
  have htyped : scaledLog.WellTyped := by decide +kernel
  have hintact : scaledLog.Intact := by decide +kernel
  have hcode : ((build scaledLog).toOption.bind fun c => (c.program.find? "demo.scale").bind fun F =>
      F.body[5]?.map fun op => (c.layout.order,
        (Writing.opLines ⟨c.program, c.layout.addresses, F⟩ 5 op).lines,
        Writing.cells ⟨c.program, c.layout.addresses, F⟩ 5 op)) =
      some (["demo.main", "demo.scale"],
        [.command (.move 6 (.cell 8)), .command (.word .shl 6 (.immediate 1))],
        [(.register, 6), (.register, 8)]) := by decide +kernel
  obtain ⟨c, hbuild, hcode⟩ := Option.bind_eq_some_iff.mp hcode
  obtain ⟨F, hF, hcode⟩ := Option.bind_eq_some_iff.mp hcode
  obtain ⟨op, hop, hcode⟩ := Option.map_eq_some_iff.mp hcode
  simp only [Prod.mk.injEq] at hcode
  obtain ⟨horder, hlines, hcells⟩ := hcode
  have hbuild := toOption_eq_some.mp hbuild
  obtain ⟨hok, hall⟩ := typed_programs_compile hbuild htyped hintact
  obtain ⟨F', hF', hkeeps, hsection, hops⟩ := hall "demo.scale" (by simp [horder])
  obtain rfl : F' = F := Option.some.inj (hF'.symm.trans hF)
  obtain ⟨lines, hwrites, hinfix, hnames⟩ := hops 5 op hop
  refine ⟨htyped, hintact, hok, c, F', op, lines, hbuild, hF, hkeeps, hop, hwrites, ?_,
    hinfix.trans hsection, hnames, hcells⟩
  rw [← hlines, hwrites.lines_eq]

end Stackless
