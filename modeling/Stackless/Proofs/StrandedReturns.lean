import Stackless.Proofs.Consistency
import Stackless.Proofs.Soundness

/-!
# Returns that lose their values

Simplification takes out what stands behind a jump up to the next marker or return, and it
keeps that return.  If the return gives a value, the value is computed right before it, behind
the jump too, and is taken out.  The return is **stranded**: it names an op that is gone.

* `Flat.Stranded` — whether a return stands behind a jump, with nothing left in between;
* `Lineage.removed_iff` — no other op loses what it uses, and a return just if it is stranded;
* `operand_lost_iff` — the same for all functions of a program;
* `stranded_return_fails` — a program that is accepted, and whose assembly cannot be written.

Between a value and its return stands only what computes the value, so what makes the value dead
makes the return dead (`deadBefore_of_plain`).  A dead return survives just behind a jump
(`exists_stop_of_dead`), and that jump stays: it goes to a marker, and so not to the next op that
is left, which is the return (`Excused.dropNoopAt`).
-/

namespace Stackless

open Model (Stmt Expr)

namespace Flat

/-- Only ops that were taken out stand between a jump and an index, so that control comes to the
index in no way. -/
def Stranded (code : List Instruction) (i : Nat) : Prop :=
  ∃ j target, j < i ∧ code[j]? = some (.jump target) ∧
    ∀ k, j < k → k < i → code[k]? = some .removed

section DeadStretches

variable {stops : Instruction → Bool} {body : List Op}

theorem eq_ret_of_isReturn {x : Instruction} {r : Nat} (hreturn : x.isReturn = true)
    (hr : r ∈ x.operands) : x = .ret (some r) := by
  cases x with
  | ret value => rw [Option.mem_toList.mp hr]
  | _ => cases hreturn

/-- A return that is left of a dead stretch stands behind what stops, which is no return. -/
theorem stranded_of_dead {i v : Nat}
    (hstops : stops = Instruction.isJump ∨ stops = Instruction.isReturn)
    (hdead : deadBefore stops false body i = true)
    (hret : (codeOf (stripAfter stops false body))[i]? = some (.ret (some v))) :
    Stranded (codeOf (stripAfter stops false body)) i := by
  obtain ⟨op', hop', hinstr⟩ := exists_of_codeOf_getElem? hret
  rw [stripAfter_getElem?, hdead] at hop'
  obtain ⟨op, hop, hop'⟩ := Option.map_eq_some_iff.mp hop'
  have hlt := (List.getElem?_eq_some_iff.mp hop).1
  rcases hstops with rfl | rfl
  · obtain ⟨j, x, hj, hx, hjump, hgone⟩ := exists_stop_of_dead (by omega) hdead
    cases x with
    | jump target => exact ⟨j, target, hj, hx, hgone⟩
    | _ => cases hjump
  · split at hop'
    · rename_i hsurvives
      subst hop'
      rw [hinstr] at hsurvives
      cases hsurvives
    · subst hop'
      cases hinstr

end DeadStretches

/-- From the value of a return up to the return there stand only values. -/
def Delivers (code : List Instruction) : Prop :=
  ∀ i v : Nat, code[i]? = some (.ret (some v)) → v < i ∧
    ∀ k, v ≤ k → k < i → ∃ x, code[k]? = some x ∧ x.isInner = true

/-- A row of pieces delivers the values of its returns. -/
theorem Pieces.delivers {ctx : Context} {stmts : List Stmt} {code : List Instruction}
    (h : Pieces ctx stmts 0 code) (hshaped : Shaped 0 code) : Delivers code := by
  intro i v hret
  have hv : v ∈ (Instruction.ret (some v)).operands := List.mem_singleton_self v
  have hlt : v < 0 + i := (hshaped.operand i _ hret v hv).2
  exact ⟨by omega, h.inner_before hret hv⟩

/-- What is computed goes nowhere, and neither starts nor ends dead code. -/
theorem plain_of_isInner {x : Instruction} (h : x.isInner = true) :
    x.target? = none ∧ x.isMarker = false ∧ x.isReturn = false ∧ x.isJump = false := by
  cases x with
  | marker | ret | jump | removed | branch => cases h
  | _ => exact ⟨rfl, rfl, rfl, rfl⟩

/-- What is left of code of which every return that lost its value is stranded. -/
structure Excused (code : List Instruction) (body : List Op) : Prop where
  drawn : Drawn code body
  stranded : ∀ i v : Nat, (codeOf body)[i]? = some (.ret (some v)) →
    (codeOf body)[v]? = some .removed → Stranded (codeOf body) i

/-- What stands where a value was computed is the value or was taken out. -/
theorem Drawn.inner {code : List Instruction} {body : List Op} (h : Drawn code body) {k : Nat}
    {x y : Instruction} (hx : code[k]? = some x) (hinner : x.isInner = true)
    (hy : (codeOf body)[k]? = some y) : y = .removed ∨ y = x := by
  obtain ⟨op, hop, rfl⟩ := exists_of_codeOf_getElem? hy
  rcases h k op hop with hremoved | ⟨instr, target, hinstr, heq⟩
  · exact .inl hremoved
  · rw [hx] at hinstr
    cases hinstr
    refine .inr ?_
    rw [heq]
    cases x with
    | jump | branch => cases hinner
    | _ => rfl

/-- A return of the body is one of the code. -/
theorem Drawn.ret {code : List Instruction} {body : List Op} (h : Drawn code body) {i : Nat}
    {value : Option Nat} (hret : (codeOf body)[i]? = some (.ret value)) :
    code[i]? = some (.ret value) := by
  obtain ⟨op, hop, hinstr⟩ := exists_of_codeOf_getElem? hret
  have hplain := h.plain hop (by rw [hinstr]; simp) (by rw [hinstr]; rfl)
  rw [hplain, hinstr]

/-- A return stays stranded as long as its jump stays. -/
theorem Stranded.trims {may : Instruction → Bool} {body out : List Op} (htrims : Trims may body out)
    {i j : Nat} {target : Target} (hj : j < i)
    (hgone : ∀ k, j < k → k < i → (codeOf body)[k]? = some .removed)
    (hjump : (codeOf out)[j]? = some (.jump target)) : Stranded (codeOf out) i :=
  ⟨j, target, hj, hjump, fun k hjk hki => htrims.removed (hgone k hjk hki)⟩

/-- A value that a body lost was there before, or is lost already. -/
theorem Drawn.lost {may : Instruction → Bool} {code : List Instruction} {body out : List Op}
    (h : Drawn code body) (htrims : Trims may body out) {v : Nat} {x : Instruction}
    (hx : code[v]? = some x) (hinner : x.isInner = true)
    (hremoved : (codeOf out)[v]? = some .removed) :
    (codeOf body)[v]? = some .removed ∨ may x = true := by
  obtain ⟨y, hy, hold⟩ := htrims.code hremoved
  rcases h.inner hx hinner hy with rfl | rfl
  · exact .inl hy
  · rcases hold with ⟨hmay, _⟩ | ⟨target, heq⟩
    · exact .inr hmay
    · cases y with
      | removed => cases hinner
      | _ => cases heq

namespace Excused

variable {code : List Instruction} {body out : List Op}

/-- A body is excused as long as it has all values. -/
theorem refl (hdelivers : Delivers (codeOf body)) : Excused (codeOf body) body where
  drawn := .refl body
  stranded := by
    intro i v hret hremoved
    obtain ⟨hlt, hinner⟩ := hdelivers i v hret
    obtain ⟨x, hx, hvalue⟩ := hinner v (Nat.le_refl v) hlt
    rw [hremoved] at hx
    cases hx
    cases hvalue

/-- A return that loses its value as a link was stranded before. -/
theorem stranded_before (h : Excused code body) (hdelivers : Delivers code)
    (htrims : Trims Instruction.isLink body out) {i v : Nat}
    (hret : (codeOf out)[i]? = some (.ret (some v))) (hremoved : (codeOf out)[v]? = some .removed) :
    Stranded (codeOf body) i := by
  obtain ⟨hlt, hinner⟩ := hdelivers i v ((h.drawn.trims htrims).ret hret)
  obtain ⟨x, hx, hvalue⟩ := hinner v (Nat.le_refl v) hlt
  rcases h.drawn.lost htrims hx hvalue hremoved with hbefore | hlink
  · exact h.stranded i v (htrims.ret hret) hbefore
  · rw [isLink_of_isInner hvalue] at hlink
    cases hlink

/-- **Taking out markers and redirecting jumps strands nothing.** -/
theorem markers (h : Excused code body) (hdelivers : Delivers code)
    (htrims : Trims Instruction.isMarker body out) : Excused code out where
  drawn := h.drawn.trims htrims
  stranded := by
    intro i v hret hremoved
    obtain ⟨j, target, hj, hjump, hgone⟩ := h.stranded_before hdelivers htrims.links hret hremoved
    obtain ⟨target', hjump'⟩ := htrims.stays hjump rfl
    exact .trims htrims hj hgone hjump'

/-- **A return loses its value as dead code only where it is stranded.**  It is dead itself, since
dead code starts and ends neither among values nor among what was taken out. -/
theorem strip (h : Excused code body) (hdelivers : Delivers code) {stops : Instruction → Bool}
    (hstops : stops = Instruction.isJump ∨ stops = Instruction.isReturn) :
    Excused code (stripAfter stops false body) where
  drawn := h.drawn.trims (stripAfter_trims stops false body)
  stranded := by
    intro i v hret hremoved
    have htrims := stripAfter_trims stops false body
    obtain ⟨hlt, hinner⟩ := hdelivers i v ((h.drawn.trims htrims).ret hret)
    have hlength := (List.getElem?_eq_some_iff.mp (htrims.ret hret)).1
    obtain ⟨x, hx⟩ : ∃ x, (codeOf body)[v]? = some x :=
      ⟨_, List.getElem?_eq_getElem (by omega)⟩
    by_cases hlost : x = .removed
    · subst hlost
      obtain ⟨j, target, hj, hjump, hgone⟩ := h.stranded i v (htrims.ret hret) hx
      rcases kept_or_dead stops hjump with hkept | hbefore
      · exact .trims htrims hj hgone hkept
      · refine stranded_of_dead hstops (deadBefore_of_plain (Nat.le_of_lt hj) hbefore ?_) hret
        intro k hjk hki
        rcases Nat.eq_or_lt_of_le hjk with rfl | hjk
        · exact ⟨_, hjump, rfl, rfl⟩
        · exact ⟨_, hgone k hjk hki, rfl, rfl⟩
    · rcases kept_or_dead stops hx with hkept | hbefore
      · rw [hremoved] at hkept
        exact absurd (Option.some.inj hkept).symm hlost
      · refine stranded_of_dead hstops (deadBefore_of_plain (Nat.le_of_lt hlt) hbefore ?_) hret
        intro k hvk hki
        obtain ⟨y, hy, hvalue⟩ := hinner k hvk hki
        obtain ⟨z, hz⟩ : ∃ z, (codeOf body)[k]? = some z :=
          ⟨_, List.getElem?_eq_getElem (by omega)⟩
        obtain ⟨_, hmarker, hreturn, _⟩ := plain_of_isInner hvalue
        rcases h.drawn.inner hy hvalue hz with rfl | rfl
        · exact ⟨_, hz, rfl, rfl⟩
        · exact ⟨_, hz, hmarker, hreturn⟩

/-- **The jump before a stranded return stays.**  It goes to a marker, and the next op that is left
is the return. -/
theorem dropNoopAt (h : Excused code body) (hdelivers : Delivers code) (hresolved : Resolved body)
    (index : Nat) : Excused code (dropNoopAt body index) where
  drawn := h.drawn.trims (dropNoopAt_trims body index)
  stranded := by
    intro i v hret hremoved
    have htrims := dropNoopAt_trims body index
    obtain ⟨j, target, hj, hjump, hgone⟩ := h.stranded_before hdelivers htrims hret hremoved
    obtain ⟨op, hop, hinstr⟩ := exists_of_codeOf_getElem? hjump
    obtain ⟨marker, hmarker, _, op', hop', hinstr'⟩ :=
      hresolved target ⟨op, List.mem_of_getElem? hop, by rw [hinstr]; rfl⟩
    have hnext : nextLive body (j + 1) ≠ target.index := by
      rw [hmarker]
      intro hnext
      obtain ⟨hle, hbetween⟩ := nextLive_eq_some hnext
      obtain ⟨ret, hop, hreturn⟩ := exists_of_codeOf_getElem? (htrims.ret hret)
      rcases Nat.lt_trichotomy marker i with hlt | rfl | hlt
      · have hgone := hgone marker (by omega) hlt
        rw [codeOf_getElem? hop', hinstr'] at hgone
        cases hgone
      · rw [hop] at hop'
        cases hop'
        rw [hreturn] at hinstr'
        cases hinstr'
      · obtain ⟨dead, hdead, hgone⟩ := hbetween i (by omega) hlt
        rw [hop] at hdead
        cases hdead
        rw [hreturn] at hgone
        cases hgone
    have hkept : (Flat.dropNoopAt body index)[j]? = some op := by
      rw [Flat.dropNoopAt, getElem?_modify_eq, hop]
      split
      · rename_i heq
        subst heq
        simp [hinstr, hnext]
      · rfl
    exact .trims htrims hj hgone ((codeOf_getElem? hkept).trans (congrArg some hinstr))

/-- No jump before a stranded return is taken out. -/
theorem removeNoopJumps (h : Excused code body) (hdelivers : Delivers code)
    (hresolved : Resolved body) : Excused code (removeNoopJumps body) := by
  have hfold : ∀ (indices : List Nat) (body : List Op), Excused code body → Resolved body →
      Excused code (indices.foldl Flat.dropNoopAt body) := by
    intro indices
    induction indices with
    | nil => exact fun body h _ => h
    | cons index rest ih =>
        intro body h hresolved
        exact ih _ (h.dropNoopAt hdelivers hresolved index)
          (refines_dropNoopAt index hresolved).resolved
  exact hfold _ body h hresolved

/-- **A round keeps a body excused.** -/
theorem round (h : Excused code body) (hdelivers : Delivers code) {label : String}
    (hround : Flat.round label body = .ok out) : Excused code out := by
  obtain ⟨resolved, hresolve, rfl⟩ := round_eq_ok hround
  have h1 := h.markers hdelivers (resolve_trims hresolve)
  have h2 := h1.strip hdelivers (.inr rfl)
  have h3 := h2.markers hdelivers (threadAll_trims _).of_none
  have h4 := h3.markers hdelivers (removeUnusedMarkers_trims _)
  have h5 := h4.strip hdelivers (.inl rfl)
  refine h5.removeNoopJumps hdelivers ?_
  have r1 := resolved_of_resolve hresolve
  have r2 := (refines_stripAfter Instruction.isReturn (fun _ => .inr) r1).resolved
  have r3 := (refines_threadAll r2).resolved
  have r4 := (refines_removeUnusedMarkers r3).resolved
  exact (refines_stripAfter Instruction.isJump (fun _ => .inl) r4).resolved

/-- **Simplification keeps a body excused.** -/
theorem settle (h : Excused code body) (hdelivers : Delivers code) {label : String} {fuel : Nat}
    (hsettle : Flat.settle label fuel body = .ok out) : Excused code out :=
  settle_induction (fun _ _ h hround => h.round hdelivers hround) h hsettle

end Excused

end Flat

namespace Lineage

open Flat (Instruction codeOf Stranded)

variable {model : Model.Program} {label : String} {simple : Flat.Function}
  (l : Lineage model label simple)
include l

/-- The flat body delivers the values of its returns. -/
theorem delivers : Flat.Delivers l.code :=
  l.pieces.delivers l.shaped

theorem excused : Flat.Excused l.code l.settled := by
  have hcode : codeOf (Flat.withLastUses l.flat) = l.code := Flat.codeOf_withLastUses l.flat
  have hdelivers := l.delivers
  rw [← hcode] at hdelivers ⊢
  exact (Flat.Excused.refl hdelivers).settle hdelivers l.settle_eq

/-- **An op lost what it uses just if it is a stranded return.**  No other op is left behind a jump
without a marker between the two, and behind a return even returns are taken out. -/
theorem removed_iff {i r : Nat} {op : Flat.Op} (hop : simple.body[i]? = some op)
    (hr : r ∈ op.instruction.operands) :
    (codeOf simple.body)[r]? = some .removed ↔
      op.instruction = .ret (some r) ∧ Stranded (codeOf simple.body) i := by
  have hcode : codeOf simple.body = codeOf l.settled := by
    rw [l.body_eq, Flat.codeOf_withLastUses]
  constructor
  · intro hremoved
    obtain ⟨user, huser, hr'⟩ := l.operands (Flat.codeOf_getElem? hop) hr
    have hinner := l.pieces.inner_before huser hr'
    have hlt := l.linear.lt i _ (Flat.codeOf_getElem? hop) r hr
    obtain ⟨x, hx, hvalue⟩ := hinner r (Nat.le_refl r) hlt
    by_cases hreturn : op.instruction.isReturn = true
    · have hret := Flat.eq_ret_of_isReturn hreturn hr
      refine ⟨hret, ?_⟩
      have hop' := Flat.codeOf_getElem? hop
      rw [hret] at hop'
      rw [hcode] at hremoved hop' ⊢
      exact l.excused.stranded i r hop' hremoved
    · -- any other user keeps its whole piece
      have hlive : op.instruction ≠ .removed := by
        intro heq
        rw [heq] at hr
        cases hr
      have hmarker : op.instruction.isMarker = false := by
        cases hinstr : op.instruction with
        | marker =>
            rw [hinstr] at hr
            cases hr
        | _ => rfl
      obtain ⟨op', hop', hsame⟩ := l.unbroken r i op hinner hop hlive hmarker
        (Bool.eq_false_iff.mpr hreturn) r (Nat.le_refl r) hlt
      rw [Flat.codeOf_getElem? hop'] at hremoved
      rw [hx, Option.some.inj hremoved] at hsame
      cases hsame
      cases hvalue
  · rintro ⟨hret, j, target, hj, hjump, hgone⟩
    have hop' := Flat.codeOf_getElem? hop
    rw [hret] at hop'
    obtain ⟨hlt, hinner⟩ := l.delivers i r (l.drawn.ret hop')
    rcases Nat.lt_or_ge j r with hjr | hrj
    · exact hgone r hjr hlt
    · obtain ⟨x, hx, hvalue⟩ := hinner j hrj hj
      rcases l.drawn.inner hx hvalue hjump with heq | rfl
      · cases heq
      · cases hvalue

end Lineage

namespace Stages.Member

open Flat (Op Instruction codeOf)

variable {model : Model.Program} {c : Compilation} {s : Stages model c} {label : String}
  (m : s.Member label)
include m

/-- What simplification took out gets no address. -/
theorem offset_of_removed {v : Nat} {op' : Op} (hremoved : (codeOf m.simple.body)[v]? = some .removed)
    (hop' : m.final.body[v]? = some op') : op'.instruction = .removed ∧ op'.offset = .unresolved := by
  obtain ⟨mid, offset, pools, next, hmid, hinstr, hoffset, _, hanchor⟩ := m.visited hop'
  obtain ⟨old, hold⟩ := m.ported.exists_old hmid
  obtain ⟨_, _, _, _, _, _, hnone⟩ := m.exists_code
  obtain ⟨_, hkept, hmoved⟩ := m.ported.kept v old mid hold hmid
  have hgone : old.instruction = .removed := by
    rw [Flat.codeOf_getElem? hold] at hremoved
    exact Option.some.inj hremoved
  have hmidGone : mid.instruction = .removed := by
    rcases hkept with heq | heq
    · exact heq.trans hgone
    · exact heq
  refine ⟨hinstr.trans hmidGone, ?_⟩
  rw [hmidGone] at hoffset
  cases hoffset
  have hsame : mid.offset = old.offset := by
    rcases hmoved with heq | ⟨var, hvar⟩
    · exact heq
    · rw [hgone] at hvar
      cases hvar
  rw [Option.getD_none, hsame, hnone old (List.mem_of_getElem? hold)] at hanchor
  exact (Except.ok.inj hanchor).symm

/-- **A section with a stranded return cannot be written.** -/
theorem not_stranded {i v : Nat} (hwritable : Assembly.Writable c.program c.layout.addresses label)
    (hret : (codeOf m.simple.body)[i]? = some (.ret (some v))) :
    ¬Flat.Stranded (codeOf m.simple.body) i := by
  intro hstranded
  obtain ⟨l⟩ := m.exists_lineage
  obtain ⟨op, hop, hinstr⟩ := Flat.exists_of_codeOf_getElem? hret
  have hremoved : (codeOf m.simple.body)[v]? = some .removed :=
    (l.removed_iff hop (by rw [hinstr]; exact List.mem_singleton_self v)).mpr ⟨hinstr, hstranded⟩
  obtain ⟨F, hF, hlines⟩ := hwritable
  rw [m.final_eq] at hF
  cases hF
  obtain ⟨op', hop', hinstr'⟩ :=
    Flat.exists_of_codeOf_getElem? (m.final_of_simple hret rfl (by simp))
  have houtcome := Assembly.Emission.writes_of_outcome (hlines i op' hop')
  rw [Assembly.Writing.opLines, hinstr'] at houtcome
  obtain ⟨slot, _, houtcome⟩ := Assembly.Emission.writes_silent_bind.mp houtcome
  obtain ⟨_, _, _, hpass, _⟩ := Assembly.Emission.writes_bind.mp houtcome
  obtain ⟨given, hgiven, hpassed⟩ := Assembly.Writing.pass_writes.mp hpass
  obtain ⟨hgone, hbare⟩ := m.offset_of_removed hremoved hgiven
  rw [Assembly.Writing.passed?, hgone, hbare] at hpassed
  cases hpassed

end Stages.Member

/-- **Only stranded returns lose what they use.**  What was flattened can be simplified.  In each
function an op that is left uses an op that was taken out just if it is the return of that op
and stands behind a jump, with nothing left in between.  The assembly of a program in which such
a return is reached cannot be written. -/
theorem operand_lost_iff {model : Model.Program} {flat : Flat.Program}
    (h : Flat.Program.ofModel model = .ok flat) :
    ∃ simple, flat.simplify = .ok simple ∧
      ∀ label f, simple.find? label = some f →
        (∀ (i : Nat) op, f.body[i]? = some op → ∀ r ∈ op.instruction.operands,
          ((Flat.codeOf f.body)[r]? = some .removed ↔
            op.instruction = .ret (some r) ∧ Flat.Stranded (Flat.codeOf f.body) i)) ∧
        ∀ c i v, build model = .ok c → label ∈ c.layout.order →
          (Flat.codeOf f.body)[i]? = some (.ret (some v)) → Flat.Stranded (Flat.codeOf f.body) i →
          (compile model).outcome ≠ .ok () := by
  obtain ⟨simple, hsimple⟩ := Flat.exists_simplified h
  refine ⟨simple, hsimple, fun label f hf => ⟨fun i op hop r hr => ?_, ?_⟩⟩
  · obtain ⟨l⟩ := exists_lineage h hsimple hf
    exact l.removed_iff hop hr
  · intro c i v hbuild hlabel hret hstranded houtcome
    obtain ⟨s⟩ := stages_of_build hbuild
    obtain ⟨c', hbuild', hwritable, _⟩ :=
      Assembly.compile_writes.mp (Assembly.Emission.writes_of_outcome houtcome)
    rw [hbuild] at hbuild'
    cases hbuild'
    obtain ⟨m⟩ := s.exists_member (s.order_eq ▸ hlabel)
    have hsame : m.simple = f := by
      have hsimple' := s.simple_eq
      rw [Except.ok.inj (s.flat_eq.symm.trans h), hsimple] at hsimple'
      have hfind := m.simple_eq
      rw [← Except.ok.inj hsimple', hf] at hfind
      exact (Option.some.inj hfind).symm
    subst hsame
    exact m.not_stranded (hwritable label hlabel) hret hstranded

/-- A program whose callee leaves a loop and then, in the loop, gives a value. -/
def leftLoop : Model.Program :=
  let entry : Model.Function :=
    ({ label := "demo.main" } : Model.Function).withBody [.call "level" []]
  let level : Model.Function :=
    (({ label := "demo.level", returns := some .int } : Model.Function).addSymbol "k" .word
      ).withBody
        [.forever [.breakLoop, .ret (some (.binary .add (.var "k") (.int 1)))], .ret (some (.int 4))]
  let demo : Model.Module := (({} : Model.Module).addFunction entry).addFunction level
  { name := "demo", modules := Table.empty.insert "demo" demo }

/-- The return in the loop of `leftLoop` lost the sum that it gives. -/
theorem operand_lost_iff_leftLoop :
    ∃ flat simple f, Flat.Program.ofModel leftLoop = .ok flat ∧ flat.simplify = .ok simple ∧
      simple.find? "demo.level" = some f ∧
      (Flat.codeOf f.body)[6]? = some (.ret (some 5)) ∧ Flat.Stranded (Flat.codeOf f.body) 6 := by
  have hcode : (leftLoop.simplified?.bind (·.find? "demo.level")).map (fun f =>
      ((Flat.codeOf f.body)[5]?, (Flat.codeOf f.body)[6]?)) =
      some (some .removed, some (.ret (some 5))) := by decide +kernel
  obtain ⟨f, hf, hat⟩ := Option.map_eq_some_iff.mp hcode
  obtain ⟨simple, hsimple, hf⟩ := Option.bind_eq_some_iff.mp hf
  obtain ⟨flat, hflat, hsimple⟩ := Option.bind_eq_some_iff.mp hsimple
  rw [toOption_eq_some] at hflat hsimple
  obtain ⟨simple', hsimple', hlost⟩ := operand_lost_iff hflat
  rw [hsimple] at hsimple'
  cases hsimple'
  obtain ⟨hremoved, hret⟩ := Prod.ext_iff.mp hat
  obtain ⟨op, hop, hinstr⟩ := Flat.exists_of_codeOf_getElem? hret
  refine ⟨flat, simple, f, hflat, hsimple, hf, hret, ?_⟩
  exact ((((hlost _ f hf).1 6 op hop 5 (by rw [hinstr]; decide)).mp hremoved)).2

/-- **A program can be accepted and have no assembly.**  An op of `leftLoop` uses what was taken
out, and so the writer finds no address where it needs one. -/
theorem stranded_return_fails :
    ¬leftLoop.Intact ∧ ∃ flat c, Flat.Program.ofModel leftLoop = .ok flat ∧
      build leftLoop = .ok c ∧
      reported? (compile leftLoop).outcome =
        some ⟨none, .internal "demo.level" 5 .bareInstruction⟩ := by
  refine ⟨by decide +kernel, ?_⟩
  have hok : (build leftLoop).toOption.isSome = true := by decide +kernel
  obtain ⟨c, hbuild⟩ := Option.isSome_iff_exists.mp hok
  obtain ⟨s⟩ := stages_of_build (toOption_eq_some.mp hbuild)
  exact ⟨s.flat, c, s.flat_eq, toOption_eq_some.mp hbuild, by decide +kernel⟩

end Stackless
