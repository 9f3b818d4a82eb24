import Stackless.Proofs.Footprint

/-!
# Comparisons and the jumps behind them

A comparison leaves its outcome in the flags, and the flags last until the next
command.  So a branch can jump on them if it follows at once, and for any other user the
outcome has to be put into a bit.  The allocation decides between the two by the last
user of the comparison, and the emission of a branch by the instruction that it tests.

The two agree because a branch stands right behind the value that it tests
(`Pieces.test_behind`), and nobody else uses that value.

* `Member.fused` — a comparison that is tested by a branch has no bit, and the lines of
  the two are a comparison and a jump on its flags, with nothing between;
* `Member.stored` — every other comparison has a bit; if it is only copied to a
  variable, then that of the variable, and the copy takes no command.
-/

namespace Stackless

open Flat (Op Instruction Offset Width Var Target Function codeOf)
open Assembly
open Model (CompareOp)

namespace Flat

/-- A piece that ends in a branch tests the value right before it. -/
theorem Piece.of_branch {ctx : Context} {stmts : List Model.Stmt} {start condition : Nat}
    {code inner : List Instruction} {expected : Bool} {target : Target}
    (h : Piece ctx stmts start code) (hend : code = inner ++ [.branch expected condition target]) :
    condition + 1 = start + inner.length := by
  have hlast : ∀ {rest : List Instruction} {x : Instruction}, code = rest ++ [x] →
      x = .branch expected condition target := by
    intro rest x hx
    rw [hend] at hx
    exact (List.cons.inj (List.append_inj' hx rfl).2).1.symm
  cases h with
  | marker name => cases hlast (List.nil_append _).symm
  | jump target => cases hlast (List.nil_append _).symm
  | ending => cases hlast (List.nil_append _).symm
  | test expected target hmem hvalue =>
      cases hlast rfl
      obtain ⟨hinner, _⟩ := List.append_inj' hend rfl
      rw [← hinner]
      exact (Evaluation.ref_range _ start).2
  | simple hmem hsimple hcode =>
      obtain ⟨rest, last, rfl, _, hdeed⟩ := simpleCode_split hsimple hcode
      cases hlast rfl
      rcases hdeed with ⟨_, hreturn⟩ | ⟨_, hdeed⟩
      · cases hreturn
      · cases hdeed

/-- **A branch stands right behind the value that it tests** in flat code, since the test of a
condition is written as one piece, with the branch at its end. -/
theorem Pieces.test_behind {ctx : Context} {stmts : List Model.Stmt} {code : List Instruction}
    (h : Pieces ctx stmts 0 code) {j condition : Nat} {expected : Bool} {target : Target}
    (hj : code[j]? = some (.branch expected condition target)) : j = condition + 1 := by
  obtain ⟨a, inner, hpiece, rfl, _⟩ := h.exists_ended hj rfl
  exact (hpiece.of_branch rfl).symm

/-- The op at `user` is a branch that tests the value at an index. -/
def Function.Tests (f : Function) (user index : Nat) : Prop :=
  ∃ expected target, (codeOf f.body)[user]? = some (.branch expected index target)

/-- The op at `user` only copies the value at an index to a truth variable. -/
def Function.Copies (f : Function) (user index : Nat) (var : Var) : Prop :=
  ∃ target, (codeOf f.body)[user]? = some (.assign none .bit target index) ∧
    (codeOf f.body)[target]? = some (.bit var)

end Flat

namespace Storage

/-- A comparison feeds its last user if that is a branch. -/
theorem feedsBranch_eq_true {body : List Op} {index last : Nat} :
    feedsBranch body index last = true ↔ last ≠ index ∧
      ∃ expected condition target,
        (codeOf body)[last]? = some (.branch expected condition target) := by
  unfold feedsBranch codeOf
  rw [List.getElem?_map]
  cases body[last]? with
  | none => simp
  | some op =>
      cases hinstr : op.instruction with
      | branch => simp [hinstr]
      | _ => simp [hinstr]

/-- A value that is only copied to a truth variable is copied to that variable. -/
theorem copyTarget?_of_copies {f : Function} {body : List Op} (hcode : codeOf f.body = codeOf body)
    {user index : Nat} {var : Var} (h : f.Copies user index var) :
    copyTarget? body index user = .ok (some var) := by
  obtain ⟨target, huser, htarget⟩ := h
  rw [hcode] at huser htarget
  obtain ⟨op, hop, hassign⟩ := Flat.exists_of_codeOf_getElem? huser
  obtain ⟨place, hplace, hbit⟩ := Flat.exists_of_codeOf_getElem? htarget
  have hat : instructionAt body target = .ok (.bit var) := by
    simp [instructionAt, hplace, orTrap, hbit, pure, Except.pure, bind, Except.bind]
  simp [copyTarget?, hop, hassign, hat, pure, Except.pure, bind, Except.bind]

end Storage

namespace Assembly

/-- Whether a command compares, and leaves the outcome in the flags. -/
def Command.compares : Command → Bool
  | .compare _ _ | .compareBit _ _ => true
  | _ => false

namespace Writing

variable {w : Writing}

/-- **The lines of a comparison** end in the command that compares, and in the one that
keeps the outcome if it has a bit. -/
theorem compare_ends {i : Nat} {op : Op} {comparison : CompareOp} {width : Width} {lhs rhs : Nat}
    (hop : w.function.body[i]? = some op) (hinstr : op.instruction = .compare comparison width lhs rhs)
    (hok : (w.opLines i op).outcome = .ok ()) :
    ∃ before command, command.compares = true ∧
      (w.opLines i op).lines = before ++ .command command :: kept comparison op := by
  have hwrites := Emission.writes_of_outcome hok
  generalize (w.opLines i op).lines = lines at hwrites
  rw [opLines_writes, hinstr] at hwrites
  obtain ⟨self, hself, hlines⟩ := compare_writes.mp hwrites
  rw [hop] at hself
  cases hself
  cases width with
  | word =>
      obtain ⟨left, right, _, _, hlines⟩ := hlines
      rw [hlines]
      cases left with
      | cell address => exact ⟨[], .compare address right, rfl, rfl⟩
      | immediate value =>
          exact ⟨[.command (.move scratch (.immediate value))], .compare scratch right, rfl, rfl⟩
  | bit =>
      obtain ⟨left, right, _, _, hlines⟩ := hlines
      rw [hlines]
      exact ⟨[], .compareBit left right, rfl, rfl⟩

/-- A branch that tests a comparison jumps on its flags. -/
theorem branch_jumps {i j : Nat} {op branch : Op} {comparison : CompareOp} {width : Width}
    {lhs rhs : Nat} {expected : Bool} {target : Target} (hop : w.function.body[i]? = some op)
    (hinstr : op.instruction = .compare comparison width lhs rhs)
    (hbranch : branch.instruction = .branch expected i target) :
    (w.opLines j branch).Writes [.command (.jumpIf
      (if expected then comparison else negated comparison) target.marker), .blank] () := by
  rw [opLines_writes, hbranch]
  refine branch_writes.mpr ⟨op, hop, ?_⟩
  rw [hinstr]
  rfl

/-- The comparison at `i` is there for the branch at `j` only, and the branch jumps on its
flags. -/
structure Fused (w : Writing) (i j : Nat) (comparison : CompareOp) (expected : Bool)
    (target : Target) (op branch : Op) : Prop where
  behind : j = i + 1
  sole : ∀ (k : Nat) (user : Instruction), (codeOf w.function.body)[k]? = some user →
    i ∈ user.operands → k = j
  bare : op.offset = .unresolved
  /-- No line stands between the comparison and the jump. -/
  lines : (w.opLines i op).outcome = .ok () → ∃ before command, command.compares = true ∧
    w.written i [op, branch] = before ++ [.command command, .command (.jumpIf
      (if expected then comparison else negated comparison) target.marker), .blank]

end Writing

end Assembly

/-- The address of a variable for a function: that of its local, or that of the global in
the layout. -/
def Compilation.addressIn? (c : Compilation) (f : Function) : Var → Option Nat
  | .localVar name => (f.locals.find? name).bind Offset.absolute?
  | .globalVar label => c.layout.addresses.find? label

namespace Assembly.Writing

/-- The outcome of the comparison at `i` is put into a bit, for its only user, by the command right
behind the one that compares. -/
structure Stored (c : Compilation) (w : Writing) (i : Nat) (comparison : CompareOp) (op : Op)
    (address : Nat) : Prop where
  offset : op.offset = .absolute address
  sole : ∀ (k l : Nat) (user other : Instruction), (codeOf w.function.body)[k]? = some user →
    i ∈ user.operands → (codeOf w.function.body)[l]? = some other → i ∈ other.operands → k = l
  /-- The outcome is put away at once. -/
  lines : (w.opLines i op).outcome = .ok () → ∃ before command, command.compares = true ∧
    (w.opLines i op).lines = before ++ [.command command, .command (.test comparison address)]
  /-- If it is only copied to a variable, then it is in the variable, and the copy is left
  out. -/
  copied : ∀ user var, w.function.Copies user i var → c.addressIn? w.function var = some address ∧
    ∀ copy, w.function.body[user]? = some copy → (w.opLines user copy).Writes [.blank] ()
  /-- Otherwise it is in the window of the function. -/
  owned : (∀ user var, ¬w.function.Copies user i var) → (w.function.window .bit).Holds address

end Assembly.Writing

namespace Stages.Member

variable {model : Model.Program} {c : Compilation} {s : Stages model c} {label : String}

/-- The address of a variable is the one that its function sees. -/
theorem addressIn?_final (m : s.Member label) (var : Var) :
    c.addressIn? m.final var = m.addressOf? var := by
  cases var with
  | localVar name => rfl
  | globalVar label => rfl

/-- **A branch that is left stands right behind the value that it tests**, in the body that is
written out too: what is taken out leaves its place empty, so that no index changes. -/
theorem test_behind (m : s.Member label) {j condition : Nat} {expected : Bool} {target : Target}
    (hj : (codeOf m.final.body)[j]? = some (.branch expected condition target)) :
    j = condition + 1 := by
  obtain ⟨l⟩ := m.exists_lineage
  have hsimple := m.simple_of_codeOf_final hj (by simp)
  obtain ⟨op, hop, hinstr⟩ := Flat.exists_of_codeOf_getElem? hsimple
  rcases l.drawn j op hop with hremoved | ⟨x, target', hx, heq⟩
  · rw [hinstr] at hremoved
    cases hremoved
  · rw [hinstr] at heq
    cases x with
    | branch expected' condition' target'' =>
        cases heq
        exact l.pieces.test_behind hx
    | _ => cases heq

/-- A value that is used has one user in the end. -/
theorem user_unique (m : s.Member label) {r k l : Nat} {x y : Instruction}
    (hx : (codeOf m.final.body)[k]? = some x) (hrx : r ∈ x.operands)
    (hy : (codeOf m.final.body)[l]? = some y) (hry : r ∈ y.operands) : k = l := by
  obtain ⟨lineage⟩ := m.exists_lineage
  have hlive : ∀ {z : Instruction}, r ∈ z.operands → z ≠ .removed := by
    rintro z hr rfl
    cases hr
  exact lineage.linear.once k l x y r (m.simple_of_codeOf_final hx (hlive hrx))
    (m.simple_of_codeOf_final hy (hlive hry)) hrx hry

section Comparing

variable (m : s.Member label) {i : Nat} {op : Op} {comparison : CompareOp} {width : Width}
  {lhs rhs : Nat} (hop : m.final.body[i]? = some op)
  (hinstr : op.instruction = .compare comparison width lhs rhs)

include hop hinstr

theorem comparison_placed : m.Comparison i op.offset := by
  have hplaced := m.placement hop
  rw [hinstr] at hplaced
  exact hplaced

/-- A comparison is used last by its only user. -/
theorem comparison_lastUse {j : Nat} {user : Instruction}
    (huser : (codeOf m.final.body)[j]? = some user) (hr : i ∈ user.operands) : m.lastUse i = j := by
  have hx := Flat.codeOf_getElem? hop
  rw [hinstr] at hx
  exact m.lastUse_eq huser hr hx (by simp) rfl

/-- **A comparison before its branch** has no bit, and the branch jumps on its flags. -/
theorem fused {j : Nat} {branch : Op} {expected : Bool} {target : Target}
    (hbranch : m.final.body[j]? = some branch)
    (htest : branch.instruction = .branch expected i target) :
    m.writing.Fused i j comparison expected target op branch := by
  have hcode := Flat.codeOf_getElem? hbranch
  rw [htest] at hcode
  have huses : i ∈ (Instruction.branch expected i target).operands := List.mem_singleton.mpr rfl
  have hbehind := m.test_behind hcode
  have hbare : op.offset = .unresolved := by
    have hcomparison := m.comparison_placed hop hinstr
    have hfeeds : Storage.feedsBranch m.framing.visit.body i (m.lastUse i) = true := by
      rw [m.comparison_lastUse hop hinstr hcode huses]
      apply Storage.feedsBranch_eq_true.mpr
      rw [← m.codeOf_final]
      exact ⟨by omega, expected, i, target, hcode⟩
    unfold Comparison at hcomparison
    rwa [if_pos hfeeds] at hcomparison
  refine ⟨hbehind, fun k user huser hr => m.user_unique huser hr hcode huses, hbare, fun hok => ?_⟩
  obtain ⟨before, command, hcompares, hlines⟩ := Writing.compare_ends hop hinstr hok
  refine ⟨before, command, hcompares, ?_⟩
  have hjump := (Writing.branch_jumps (w := m.writing) (j := j) hop hinstr htest).lines_eq
  have hkept : Writing.kept comparison op = [] := by
    rw [Writing.kept, hbare]
    rfl
  rw [hkept] at hlines
  simp only [Writing.written, List.zipIdx_cons, List.zipIdx_nil, List.flatMap_cons,
    List.flatMap_nil, ← hbehind, hlines, hjump]
  simp

/-- A comparison that no branch tests does not feed a branch. -/
theorem feedsBranch_eq_false (hfree : ∀ j, ¬m.final.Tests j i) :
    Storage.feedsBranch m.framing.visit.body i (m.lastUse i) = false := by
  apply Bool.eq_false_iff.mpr
  intro hfeeds
  obtain ⟨hne, expected, condition, target, hbranch⟩ := Storage.feedsBranch_eq_true.mp hfeeds
  rw [← m.codeOf_final] at hbranch
  obtain ⟨l⟩ := m.exists_lineage
  have hx := Flat.codeOf_getElem? hop
  rw [hinstr] at hx
  have hlast := m.lastUse_of_value l hx (by simp) rfl
  cases huser : Flat.lastUser i 0 l.settled with
  | none =>
      rw [huser] at hlast
      exact hne hlast
  | some user =>
      rw [huser, Option.getD_some] at hlast
      obtain ⟨y, hy, hr⟩ := m.user_of_lastUser l huser
      rw [hlast] at hbranch
      rw [m.simple_of_codeOf_final hbranch (by simp)] at hy
      cases hy
      obtain rfl : i = condition := List.mem_singleton.mp hr
      exact hfree user ⟨expected, target, hbranch⟩

/-- The copy of a comparison to the variable that it is in takes no command. -/
theorem copy_blank {user address : Nat} {var : Var} {copy : Op} (hat : op.offset = .absolute address)
    (hcopies : m.final.Copies user i var) (haddress : m.addressOf? var = some address)
    (hcopy : m.final.body[user]? = some copy) : (m.writing.opLines user copy).Writes [.blank] () := by
  obtain ⟨target, hassign, hbit⟩ := hcopies
  obtain ⟨place, hplace, hplaceInstr⟩ := Flat.exists_of_codeOf_getElem? hbit
  have hplaced := m.placement hplace
  rw [hplaceInstr] at hplaced
  obtain ⟨address', haddress', hplaced⟩ := hplaced
  rw [haddress] at haddress'
  cases haddress'
  have hcopyInstr := Flat.codeOf_getElem? hcopy
  rw [hassign] at hcopyInstr
  exact Writing.copy_blank hop (by rw [hinstr]; rfl) hat (Option.some.inj hcopyInstr).symm hplace
    hplaced

/-- A comparison with a bit puts its outcome there at once. -/
theorem stored_lines {address : Nat} (hat : op.offset = .absolute address)
    (hok : (m.writing.opLines i op).outcome = .ok ()) :
    ∃ before command, command.compares = true ∧ (m.writing.opLines i op).lines =
      before ++ [.command command, .command (.test comparison address)] := by
  obtain ⟨before, command, hcompares, hlines⟩ := Writing.compare_ends hop hinstr hok
  refine ⟨before, command, hcompares, ?_⟩
  rw [hlines, Writing.kept, hat]
  rfl

/-- **A comparison that no branch tests** has a bit, that of the variable if it is only
copied to one. -/
theorem stored (hfree : ∀ j, ¬m.final.Tests j i) :
    ∃ address, m.writing.Stored c i comparison op address := by
  have hcomparison := m.comparison_placed hop hinstr
  unfold Comparison at hcomparison
  rw [if_neg (by rw [m.feedsBranch_eq_false hop hinstr hfree]; simp)] at hcomparison
  have hlast : ∀ user var, m.final.Copies user i var →
      Storage.copyTarget? m.framing.visit.body i (m.lastUse i) = .ok (some var) := by
    intro user var hcopies
    obtain ⟨target, hassign, _⟩ := id hcopies
    rw [m.comparison_lastUse hop hinstr hassign (by simp [Instruction.operands])]
    exact Storage.copyTarget?_of_copies m.codeOf_final hcopies
  rcases hcomparison with ⟨hnone, _, slot, _, hlt, hat⟩ | ⟨var, address, hsome, haddress, hat⟩
  · refine ⟨m.address .bit slot, hat, fun k l _ _ hk hr hl hr' => m.user_unique hk hr hl hr',
      m.stored_lines hop hinstr hat, fun user var hcopies => ?_, fun _ => m.holds_address hlt⟩
    rw [hlast user var hcopies] at hnone
    cases hnone
  · refine ⟨address, hat, fun k l _ _ hk hr hl hr' => m.user_unique hk hr hl hr',
      m.stored_lines hop hinstr hat, fun user var' hcopies => ?_, fun hnone => ?_⟩
    · have hsame := hlast user var' hcopies
      rw [hsome] at hsame
      obtain rfl : var = var' := Option.some.inj (Except.ok.inj hsame)
      exact ⟨(m.addressIn?_final var).trans haddress,
        fun _ => m.copy_blank hop hinstr hat hcopies haddress⟩
    · obtain ⟨target, hassign, hbit⟩ := Storage.copyTarget?_bit hsome
      rw [← m.codeOf_final] at hassign hbit
      exact absurd ⟨target, hassign, hbit⟩ (hnone (m.lastUse i) var)

end Comparing

end Stages.Member

/-- **Comparisons are fused with their branches, or stored.**  Take a function of an accepted
build and a comparison that is left in it.  A branch that tests the comparison stands right
behind it and is its only user; the comparison then has no bit, and its lines go on with the
jump on its flags.  If no branch tests it, it has a bit, into which its lines put the outcome:
that of the variable, if the comparison is only copied to a truth variable, and then the copy
takes no command; else one in the window of the function. -/
theorem comparisons_fused_or_stored {model : Model.Program} {c : Compilation}
    (h : build model = .ok c) : ∀ label ∈ c.layout.order, ∃ f, c.program.find? label = some f ∧
      ∀ (i : Nat) (op : Op) (comparison : CompareOp) (width : Width) (lhs rhs : Nat),
        f.body[i]? = some op → op.instruction = .compare comparison width lhs rhs →
        (∀ (j : Nat) (branch : Op) (expected : Bool) (target : Target), f.body[j]? = some branch →
          branch.instruction = .branch expected i target →
          Writing.Fused ⟨c.program, c.layout.addresses, f⟩ i j comparison expected target op branch) ∧
        ((∀ j, ¬f.Tests j i) → ∃ address,
          Writing.Stored c ⟨c.program, c.layout.addresses, f⟩ i comparison op address) := by
  obtain ⟨s⟩ := stages_of_build h
  intro label hlabel
  rw [s.order_eq] at hlabel
  obtain ⟨m⟩ := s.exists_member hlabel
  refine ⟨m.final, m.final_eq, fun i op comparison width lhs rhs hop hinstr => ⟨?_, ?_⟩⟩
  · intro j branch expected target hbranch htest
    exact m.fused hop hinstr hbranch htest
  · exact m.stored hop hinstr

/-- A function that raises a word up to another, and keeps whether the two are the same. -/
def limitedEntry : Model.Function :=
  ({ label := "demo.main" } : Model.Function).withBody
    [.branch (.compare .lt (.var "demo.a") (.var "demo.b"))
        ⟨none, .assign (.var "demo.a") (some .add) (.int 1)⟩ none,
      .assign (.var "demo.same") none (.compare .eq (.var "demo.a") (.var "demo.b"))]

/-- A program whose entry is `limitedEntry`. -/
def limitedCount : Model.Program :=
  let demo : Model.Module :=
    (((({} : Model.Module).addSymbol "a" .word).addSymbol "b" .word).addSymbol "same"
      .flag).addFunction limitedEntry
  { name := "demo", modules := Table.empty.insert "demo" demo }

/-- The code of `limitedEntry`, with its first comparison at 3 and its last one at 11. -/
def limitedCode : List Instruction :=
  [.marker "demo.main", .register (.globalVar "demo.a"), .register (.globalVar "demo.b"),
    .compare .lt .word 1 2, .branch false 3 ⟨"demo.main.1", some 8⟩, .int 1,
    .register (.globalVar "demo.a"), .assign (some .add) .word 6 5, .marker "demo.main.1",
    .register (.globalVar "demo.a"), .register (.globalVar "demo.b"), .compare .eq .word 9 10,
    .bit (.globalVar "demo.same"), .assign none .bit 12 11, .ret none]

/-- In `limitedCount` the first comparison is fused with its branch, and the last one is
stored in the variable that it is copied to. -/
theorem comparisons_fused_or_stored_limitedCount :
    ∃ c f, build limitedCount = .ok c ∧ c.program.find? "demo.main" = some f ∧
      codeOf f.body = limitedCode ∧
      (∃ op branch, Writing.Fused ⟨c.program, c.layout.addresses, f⟩ 3 4 .lt false
        ⟨"demo.main.1", some 8⟩ op branch) ∧
      ∃ op address, c.layout.addresses.find? "demo.same" = some address ∧
        Writing.Stored c ⟨c.program, c.layout.addresses, f⟩ 11 .eq op address := by
  have hok : ((build limitedCount).toOption.bind fun c => (c.program.find? "demo.main").map fun f =>
      (codeOf f.body, c.layout.order)) = some (limitedCode, ["demo.main"]) := by decide +kernel
  obtain ⟨c, hbuild, hok⟩ := Option.bind_eq_some_iff.mp hok
  obtain ⟨f, hf, hok⟩ := Option.map_eq_some_iff.mp hok
  have hcode : codeOf f.body = limitedCode := congrArg Prod.fst hok
  have horder : c.layout.order = ["demo.main"] := congrArg Prod.snd hok
  have hbuild := toOption_eq_some.mp hbuild
  obtain ⟨f', hf', hall⟩ := comparisons_fused_or_stored hbuild "demo.main" (by simp [horder])
  rw [hf] at hf'
  cases hf'
  have hat : ∀ {i : Nat} {x : Instruction}, limitedCode[i]? = some x →
      ∃ op, f.body[i]? = some op ∧ op.instruction = x :=
    fun hx => Flat.exists_of_codeOf_getElem? (hcode ▸ hx)
  refine ⟨c, f, hbuild, hf, hcode, ?_, ?_⟩
  · obtain ⟨op, hop, hinstr⟩ := hat (i := 3) rfl
    obtain ⟨branch, hbranch, htest⟩ := hat (i := 4) rfl
    exact ⟨op, branch, (hall 3 op _ _ _ _ hop hinstr).1 4 branch _ _ hbranch htest⟩
  · obtain ⟨op, hop, hinstr⟩ := hat (i := 11) rfl
    obtain ⟨address, hstored⟩ := (hall 11 op _ _ _ _ hop hinstr).2 fun j htests => by
      obtain ⟨expected, target, hj⟩ := htests
      rw [hcode] at hj
      have hmem := List.mem_of_getElem? hj
      simp [limitedCode] at hmem
    have hcopies : f.Copies 13 11 (.globalVar "demo.same") := by
      refine ⟨12, ?_, ?_⟩
      · rw [hcode]
        rfl
      · rw [hcode]
        rfl
    exact ⟨op, address, (hstored.copied 13 _ hcopies).1, hstored⟩

end Stackless
