import Stackless.Proofs.Landings
import Stackless.Proofs.Stages

/-!
# Simplification keeps runs

Each step of a round keeps the runs of a body in its own way.

* Resolving sends a jump to the head of a run of markers (`sameRuns_resolve`).
* Dead code is never come to (`refines_stripAfter`).
* A threaded jump is a shortcut (`refines_threadAt`).
* A marker that nothing goes to does nothing (`refines_removeUnusedMarkers`).
* A jump to the next instruction is itself a shortcut of doing nothing
  (`refines_dropNoopAt`).

Between resolving and the end of a round jumps go by their indices (`Resolved`).
After the round every marker that is left is gone to, and so is the head of a run
of the body before; if such heads have different names, jumps can go by names again
(`round_keeps_runs`), and the next round can begin.
-/

namespace Stackless.Flat

/-- Every op that goes somewhere knows the index of its marker. The first step of a round sees to
that, and the other steps rely on it. -/
def Resolved (body : List Op) : Prop :=
  ∀ target, Aims body target →
    ∃ index, target.index = some index ∧ Marks body index target.marker

/-- A resolved body that goes nowhere new, has no new markers, and has the same
runs. -/
structure Refines (body out : List Op) : Prop where
  resolved : Resolved out
  aims : ∀ target, Aims out target → Aims body target
  marks : ∀ index name, Marks out index name → Marks body index name
  runs : SameRuns (indexFlow body) (indexFlow out)

namespace Refines

variable {body mid out : List Op}

theorem refl (h : Resolved body) : Refines body body :=
  ⟨h, fun _ haims => haims, fun _ _ hmarks => hmarks, .refl _⟩

theorem trans (h : Refines body mid) (h' : Refines mid out) : Refines body out := by
  refine ⟨h'.resolved, fun target haims => ?_, fun index name hmarks => ?_, h.runs.trans h'.runs⟩
  · exact h.aims target (h'.aims target haims)
  · exact h.marks index name (h'.marks index name hmarks)

/-- Steps from index to index that each refine a body refine it together. -/
theorem foldl {step : List Op → Nat → List Op}
    (hstep : ∀ body index, Resolved body → Refines body (step body index)) (indices : List Nat)
    (h : Resolved body) : Refines body (indices.foldl step body) := by
  induction indices generalizing body with
  | nil => exact .refl h
  | cons index rest ih =>
      have hfirst := hstep body index h
      exact hfirst.trans (ih hfirst.resolved)

end Refines

theorem Trims.marks {may : Instruction → Bool} {body out : List Op} (h : Trims may body out)
    {index : Nat} {name : String} (hmarks : Marks out index name) : Marks body index name := by
  obtain ⟨hpos, op', hop', hinstr⟩ := hmarks
  obtain ⟨op, hop, htrim⟩ := h.exists_old hop'
  have hsame := htrim.instruction_eq_of_live (by rw [hinstr]; nofun) (by rw [hinstr]; rfl)
  exact ⟨hpos, op, hop, hsame ▸ hinstr⟩

/-- Every op was kept or taken out, and markers that are gone to were kept. -/
structure Drops (body out : List Op) : Prop where
  kept : ∀ (i : Nat) op', out[i]? = some op' →
    ∃ op, body[i]? = some op ∧ (op' = op ∨ op' = op.remove)
  landings : ∀ target index op, Aims body target → target.index = some index →
    body[index]? = some op → op.instruction.isMarker = true → 1 ≤ index → out[index]? = some op

namespace Drops

variable {body out : List Op}

/-- Taking out ops makes no new targets. -/
theorem aims (h : Drops body out) {target : Target} (haims : Aims out target) :
    Aims body target := by
  obtain ⟨op', hmem, htarget⟩ := haims
  obtain ⟨i, hi⟩ := List.mem_iff_getElem?.mp hmem
  obtain ⟨op, hop, rfl | rfl⟩ := h.kept i op' hi
  · exact ⟨op', List.mem_of_getElem? hop, htarget⟩
  · cases htarget

theorem marks (h : Drops body out) {index : Nat} {name : String} (hmarks : Marks out index name) :
    Marks body index name := by
  obtain ⟨hpos, op', hop', hinstr⟩ := hmarks
  obtain ⟨op, hop, rfl | rfl⟩ := h.kept index op' hop'
  · exact ⟨hpos, op', hop, hinstr⟩
  · cases hinstr

/-- Jumps keep their markers. -/
theorem resolved (h : Drops body out) (hresolved : Resolved body) : Resolved out := by
  intro target haims
  obtain ⟨index, hindex, hpos, op, hop, hinstr⟩ := hresolved target (h.aims haims)
  have hmarker : op.instruction.isMarker = true := by
    rw [hinstr]
    rfl
  exact ⟨index, hindex, hpos, op,
    h.landings target index op (h.aims haims) hindex hop hmarker hpos, hinstr⟩

/-- What is taken out without a change of the runs refines a body. -/
theorem refines (h : Drops body out) (hresolved : Resolved body)
    (hruns : SameRuns (indexFlow body) (indexFlow out)) : Refines body out :=
  ⟨h.resolved hresolved, fun _ => h.aims, fun _ _ => h.marks, hruns⟩

end Drops

section Steps

variable {body : List Op}

/-- Of dead code the markers are kept. -/
theorem drops_stripAfter (stops : Instruction → Bool) :
    Drops body (stripAfter stops false body) := by
  constructor
  · intro i op' hop'
    rw [stripAfter_getElem?] at hop'
    obtain ⟨op, hop, hop'⟩ := Option.map_eq_some_iff.mp hop'
    refine ⟨op, hop, ?_⟩
    split at hop'
    · exact .inl hop'.symm
    · exact .inr hop'.symm
  · intro _ index op _ _ hop hmarker _
    rw [stripAfter_getElem?, hop, Option.map_some, if_pos (by simp [survives, hmarker])]

/-- **A run that is not at a dead op does not come to one.**  It goes on behind an op that does
not stop it, or behind a marker, where nothing is dead. -/
theorem alive_next {stops : Instruction → Bool}
    (hstops : ∀ i : Instruction, stops i = true → i.isJump = true ∨ i.isReturn = true)
    (h : Resolved body) {i k : Nat} (halive : deadBefore stops false body i = false)
    (hk : k ∈ (indexFlow body i).nexts i) : deadBefore stops false body k = false := by
  unfold indexFlow at hk
  cases hop : body[i]? with
  | none =>
      rw [flowBy_eq_stop hop] at hk
      cases hk
  | some op =>
      rw [flowBy_eq hop] at hk
      have hbehind : op.instruction.isJump = false → op.instruction.isReturn = false →
          deadBefore stops false body (i + 1) = false := by
        intro hjump hreturn
        have hgoes : stops op.instruction = false := by
          refine Bool.eq_false_iff.mpr fun hs => ?_
          rcases hstops _ hs with h' | h'
          · exact absurd h' (by simp [hjump])
          · exact absurd h' (by simp [hreturn])
        rw [deadBefore_succ stops false hop, halive]
        simp [deadAfter, hgoes]
      have hlanding : ∀ target marker, op.instruction.target? = some target →
          target.index = some marker → deadBefore stops false body (marker + 1) = false := by
        intro target marker htarget hmarker
        obtain ⟨index, hindex, _, op', hop', hinstr⟩ :=
          h target ⟨op, List.mem_of_getElem? hop, htarget⟩
        rw [hmarker] at hindex
        cases hindex
        rw [deadBefore_succ stops false hop', hinstr]
        rfl
      generalize op.instruction = instruction at hk hbehind hlanding
      cases instruction with
      | jump target =>
          cases hindex : target.index with
          | none =>
              simp only [moveOf, hindex] at hk
              cases hk
          | some marker =>
              simp only [moveOf, hindex, Move.nexts, List.mem_singleton] at hk
              rw [hk]
              exact hlanding target marker rfl hindex
      | branch expected condition target =>
          cases hindex : target.index with
          | none =>
              simp only [moveOf, hindex] at hk
              cases hk
          | some marker =>
              simp only [moveOf, hindex, Move.nexts, List.mem_cons, List.not_mem_nil, or_false] at hk
              rcases hk with rfl | rfl
              · exact hlanding target marker rfl hindex
              · exact hbehind rfl rfl
      | ret value => cases hk
      | _ =>
          obtain rfl : k = i + 1 := List.mem_singleton.mp hk
          exact hbehind rfl rfl

/-- **Dead code is never come to**, so that it can be taken out. A jump or a return does not go on
to the next op, and only at a marker can a run come in again. -/
theorem refines_stripAfter (stops : Instruction → Bool)
    (hstops : ∀ i : Instruction, stops i = true → i.isJump = true ∨ i.isReturn = true)
    (h : Resolved body) : Refines body (stripAfter stops false body) := by
  refine (drops_stripAfter stops).refines h ?_
  refine sameRuns_of_agree (R := fun i => deadBefore stops false body i = false) ?_ ?_ ?_
  · simp only [deadBefore]
  · intro i halive
    unfold indexFlow flowBy
    rw [stripAfter_getElem?, halive]
    cases body[i]? with
    | none => rfl
    | some op => rfl
  · exact fun i halive k hk => alive_next hstops h halive hk

/-- Where a body ends, one of the same length does. -/
theorem indexFlow_of_none {out : List Op} (hlen : out.length = body.length) {i : Nat}
    (hop : body[i]? = none) : indexFlow out i = indexFlow body i := by
  have hout : out[i]? = none := by
    rw [List.getElem?_eq_none_iff] at hop ⊢
    rw [hlen]
    exact hop
  rw [indexFlow, indexFlow, flowBy_eq_stop hop, flowBy_eq_stop hout]

/-- The next live instruction, with what lies in between. -/
theorem nextLive_eq_some {start next : Nat} (h : nextLive body start = some next) :
    start ≤ next ∧ ∀ k, start ≤ k → k < next →
      ∃ op, body[k]? = some op ∧ op.instruction.isRemoved = true := by
  obtain ⟨n, hfind, rfl⟩ := Option.map_eq_some_iff.mp h
  obtain ⟨hlt, _, hbefore⟩ := List.findIdx?_eq_some_iff_getElem.mp hfind
  refine ⟨Nat.le_add_right start n, fun k hlow hhigh => ?_⟩
  obtain ⟨j, rfl⟩ : ∃ j, k = start + j := ⟨k - start, by omega⟩
  have hj : j < (body.drop start).length := by omega
  refine ⟨(body.drop start)[j], ?_, ?_⟩
  · rw [← List.getElem?_drop]
    exact List.getElem?_eq_getElem hj
  · have hnot := hbefore j (by omega)
    simpa using hnot

theorem isLoose_of_isRemoved {instruction : Instruction} (h : instruction.isRemoved = true) :
    instruction.isLoose = true := by
  unfold Instruction.isLoose
  rw [h]
  rfl

/-- The jump that comes first behind the marker of a target. -/
theorem jumpAfter?_eq_some {target target' : Target} {next : Nat}
    (h : jumpAfter? body target = some (next, target')) :
    ∃ marker op, target.index = some marker ∧ nextLive body (marker + 1) = some next ∧
      body[next]? = some op ∧ op.instruction = .jump target' := by
  obtain ⟨marker, hmarker, h⟩ := Option.bind_eq_some_iff.mp h
  obtain ⟨next', hnext, h⟩ := Option.bind_eq_some_iff.mp h
  obtain ⟨op, hop, h⟩ := Option.bind_eq_some_iff.mp h
  split at h
  · rename_i hinstr
    cases h
    exact ⟨marker, op, hmarker, hnext, hop, hinstr⟩
  · cases h

theorem target?_redirect {op : Op} {target : Target} (h : op.instruction.target? = some target)
    (target' : Target) : (op.redirect target').instruction.target? = some target' := by
  obtain ⟨instruction, offset, lastUse, position⟩ := op
  cases instruction with
  | jump | branch => rfl
  | _ => cases h

/-- The indices that jumps go to are those of their targets. -/
theorem mem_targeted {index : Nat} :
    index ∈ targeted body ↔ ∃ target, Aims body target ∧ target.index = some index := by
  unfold targeted Aims
  rw [List.mem_filterMap]
  constructor
  · rintro ⟨op, hop, h⟩
    obtain ⟨target, htarget, hindex⟩ := Option.bind_eq_some_iff.mp h
    exact ⟨target, ⟨op, hop, htarget⟩, hindex⟩
  · rintro ⟨target, ⟨op, hop, htarget⟩, hindex⟩
    exact ⟨op, hop, Option.bind_eq_some_iff.mpr ⟨target, htarget, hindex⟩⟩

/-- A marker that nothing goes to is taken out, unless it is the entry. -/
theorem removeUnusedMarkers_getElem? (body : List Op) (i : Nat) :
    (removeUnusedMarkers body)[i]? = body[i]?.map fun op =>
      if op.instruction.isMarker && (decide (1 ≤ i) && !(targeted body).contains i) then op.remove
      else op := by
  obtain ⟨hzero, hsucc⟩ := pastEntry_getElem? (dropMarkers (targeted body) 1) body
  unfold removeUnusedMarkers
  cases i with
  | zero =>
      rw [hzero]
      simp
  | succ n =>
      rw [hsucc, dropMarkers_getElem?, List.getElem?_tail, Nat.add_comm 1 n]
      by_cases hempty : body = []
      · rw [if_pos hempty, hempty]
        rfl
      · rw [if_neg hempty]
        simp

/-- **Where jumps are followed to.**  A target leads to the one that following ends at,
which is a target of the body too. -/
theorem follow_spec (h : Resolved body) (fresh : List Nat) {target : Target} {marker : Nat}
    (haims : Aims body target) (hindex : target.index = some marker) :
    Aims body (follow body fresh target) ∧ ∃ marker',
      (follow body fresh target).index = some marker' ∧
        Leads (indexFlow body) (marker + 1) (marker' + 1) := by
  fun_induction follow body fresh target generalizing marker with
  | case1 => exact ⟨haims, marker, hindex, .here⟩
  | case2 fresh target next target' hjump _ ih =>
      obtain ⟨marker', op, hmarker', hnext, hop, hinstr⟩ := jumpAfter?_eq_some hjump
      rw [hindex] at hmarker'
      cases hmarker'
      have haims' : Aims body target' := by
        refine ⟨op, List.mem_of_getElem? hop, ?_⟩
        rw [hinstr]
        rfl
      obtain ⟨marker', hindex', _⟩ := h target' haims'
      obtain ⟨hfollow, last, hlast, hleads⟩ := ih haims' hindex'
      refine ⟨hfollow, last, hlast, ?_⟩
      obtain ⟨hle, hbetween⟩ := nextLive_eq_some hnext
      have hfirst : Leads (indexFlow body) (marker + 1) next := by
        apply leads_loose hle
        intro k hlow hhigh
        obtain ⟨opk, hopk, hremoved⟩ := hbetween k hlow hhigh
        exact ⟨opk, hopk, isLoose_of_isRemoved hremoved⟩
      have hmove : indexFlow body next = .go (marker' + 1) := by
        unfold indexFlow
        rw [flowBy_eq hop, hinstr]
        simp only [moveOf, hindex']
      exact hfirst.trans (.go hmove hleads)
  | case3 => exact ⟨haims, marker, hindex, .here⟩

/-- What stands at an index after a jump was threaded is what stood there, or the threaded
jump. -/
theorem threadAt_cases (index : Nat) {i : Nat} {op : Op} (hop : body[i]? = some op) :
    (threadAt body index)[i]? = some op ∨
      ∃ target, op.instruction.target? = some target ∧ (threadAt body index)[i]? =
        some (op.redirect (follow body (List.range body.length) target)) := by
  unfold threadAt
  rw [getElem?_modify_eq, hop]
  by_cases hi : index = i
  · rw [if_pos hi]
    cases htarget : op.instruction.target? with
    | none =>
        refine .inl ?_
        simp only [Option.map_some, htarget]
    | some target =>
        refine .inr ⟨target, rfl, ?_⟩
        simp only [Option.map_some, htarget]
        rfl
  · rw [if_neg hi]
    exact .inl rfl

/-- A threaded jump goes to a marker that some jump went to before. -/
theorem aims_threadAt (index : Nat) (h : Resolved body) {target : Target}
    (haims : Aims (threadAt body index) target) : Aims body target := by
  obtain ⟨op', hmem, htarget⟩ := haims
  obtain ⟨i, hi⟩ := List.mem_iff_getElem?.mp hmem
  obtain ⟨op, hop, _⟩ := (threadAt_trims body index).exists_old hi
  rcases threadAt_cases index hop with hsame | ⟨old, hold, hnew⟩
  · rw [hi] at hsame
    cases hsame
    exact ⟨op', List.mem_of_getElem? hop, htarget⟩
  · rw [hi] at hnew
    cases hnew
    have holdAims : Aims body old := ⟨op, List.mem_of_getElem? hop, hold⟩
    obtain ⟨marker, hmarker, _⟩ := h old holdAims
    rw [target?_redirect hold] at htarget
    cases htarget
    exact (follow_spec h _ holdAims hmarker).1

/-- **A threaded jump is a shortcut.**  It goes where following the jumps behind its marker ends,
which is where a run would have come by itself. -/
theorem refines_threadAt (index : Nat) (h : Resolved body) :
    Refines body (threadAt body index) := by
  have htrims := threadAt_trims body index
  refine ⟨?_, fun _ => aims_threadAt index h, fun _ _ => htrims.marks, ?_⟩
  · intro target htarget
    obtain ⟨marker, hmarker, hpos, op, hop, hinstr⟩ := h target (aims_threadAt index h htarget)
    refine ⟨marker, hmarker, hpos, op, ?_, hinstr⟩
    rcases threadAt_cases index hop with hsame | ⟨old, hold, _⟩
    · exact hsame
    · rw [hinstr] at hold
      cases hold
  · apply sameRuns_of_shortcut
    intro i
    cases hop : body[i]? with
    | none =>
        rw [indexFlow_of_none htrims.length_eq hop]
        exact .same _
    | some op =>
        unfold indexFlow
        rcases threadAt_cases index hop with hsame | ⟨target, htarget, hnew⟩
        · rw [flowBy_eq hop, flowBy_eq hsame]
          exact .same _
        · have htargetAims : Aims body target := ⟨op, List.mem_of_getElem? hop, htarget⟩
          obtain ⟨marker, hmarker, _⟩ := h target htargetAims
          obtain ⟨_, marker', hmarker', hleads⟩ :=
            follow_spec h (List.range body.length) htargetAims hmarker
          have hahead := ahead_retarget htarget hmarker hmarker' hleads i
          rw [retarget_self htarget] at hahead
          rw [flowBy_eq hop, flowBy_eq hnew]
          exact hahead

theorem refines_threadAll (h : Resolved body) : Refines body (threadAll body) :=
  Refines.foldl (fun _ index => refines_threadAt index) (List.range body.length) h

/-- Of the markers those that are gone to are kept. -/
theorem drops_removeUnusedMarkers (body : List Op) : Drops body (removeUnusedMarkers body) := by
  have hat := removeUnusedMarkers_getElem? body
  constructor
  · intro i op' hop'
    rw [hat] at hop'
    obtain ⟨op, hop, hop'⟩ := Option.map_eq_some_iff.mp hop'
    refine ⟨op, hop, ?_⟩
    split at hop'
    · exact .inr hop'.symm
    · exact .inl hop'.symm
  · intro target index op haims hindex hop _ _
    have hused : index ∈ targeted body := mem_targeted.mpr ⟨target, haims, hindex⟩
    rw [hat, hop, Option.map_some, if_neg (by simp [hused])]

/-- **Markers that nothing goes to do nothing.**  A run passes them as it passes what was taken
out. -/
theorem refines_removeUnusedMarkers (h : Resolved body) :
    Refines body (removeUnusedMarkers body) := by
  refine (drops_removeUnusedMarkers body).refines h ?_
  have hsame : indexFlow body = indexFlow (removeUnusedMarkers body) := by
    funext i
    cases hop : body[i]? with
    | none => exact (indexFlow_of_none (removeUnusedMarkers_trims body).length_eq hop).symm
    | some op =>
        have hout := removeUnusedMarkers_getElem? body i
        rw [hop, Option.map_some] at hout
        rw [indexFlow, indexFlow, flowBy_eq hop, flowBy_eq hout]
        split
        · rename_i hunused
          have hmarker := (Bool.and_eq_true_iff.mp hunused).1
          rw [moveOf_loose (by simp [Instruction.isLoose, hmarker])]
          rfl
        · rfl
  rw [hsame]
  exact .refl _

/-- What is left of the markers is gone to. -/
theorem exists_target_of_marks {index : Nat} {name : String}
    (h : Marks (removeUnusedMarkers body) index name) :
    ∃ target, Aims body target ∧ target.index = some index := by
  obtain ⟨hpos, op', hop', hinstr⟩ := h
  rw [removeUnusedMarkers_getElem?] at hop'
  obtain ⟨op, _, hop'⟩ := Option.map_eq_some_iff.mp hop'
  split at hop'
  · subst hop'
    cases hinstr
  · rename_i hused
    subst hop'
    rw [hinstr] at hused
    apply mem_targeted.mp
    simpa [Instruction.isMarker, hpos] using hused

/-- What stands at an index after a jump was taken out is what stood there, or nothing, and then
there was a jump to the next instruction. -/
theorem dropNoopAt_cases (index : Nat) {i : Nat} {op : Op} (hop : body[i]? = some op) :
    (dropNoopAt body index)[i]? = some op ∨
      (dropNoopAt body index)[i]? = some op.remove ∧ ∃ target marker,
        op.instruction = .jump target ∧ target.index = some marker ∧
          nextLive body (i + 1) = some marker := by
  unfold dropNoopAt
  rw [getElem?_modify_eq, hop]
  by_cases hi : index = i
  · rw [if_pos hi, Option.map_some]
    subst hi
    split
    · rename_i target hinstr
      split
      · rename_i hnoop
        obtain ⟨hsome, hnext⟩ := Bool.and_eq_true_iff.mp hnoop
        obtain ⟨marker, hmarker⟩ := Option.isSome_iff_exists.mp hsome
        refine .inr ⟨rfl, target, marker, hinstr, hmarker, ?_⟩
        rw [← hmarker]
        exact of_decide_eq_true hnext
      · exact .inl rfl
    · exact .inl rfl
  · rw [if_neg hi]
    exact .inl rfl

/-- With a jump to the next instruction no marker is taken out. -/
theorem drops_dropNoopAt (body : List Op) (index : Nat) : Drops body (dropNoopAt body index) := by
  constructor
  · intro i op' hop'
    obtain ⟨op, hop, _⟩ := (dropNoopAt_trims body index).exists_old hop'
    refine ⟨op, hop, ?_⟩
    rcases dropNoopAt_cases index hop with hsame | ⟨hgone, _⟩
    · rw [hop'] at hsame
      exact .inl (Option.some.inj hsame)
    · rw [hop'] at hgone
      exact .inr (Option.some.inj hgone)
  · intro _ marker op _ _ hop hmarker _
    rcases dropNoopAt_cases index hop with hsame | ⟨_, _, _, hinstr, _⟩
    · exact hsame
    · rw [hinstr] at hmarker
      cases hmarker

/-- Without a jump to the next instruction a run passes over what was taken out before, and over
the marker. -/
theorem leads_past_noop (index : Nat) {i marker : Nat} {name : String}
    (hmarks : Marks body marker name) (hnext : nextLive body (i + 1) = some marker) :
    Leads (indexFlow (dropNoopAt body index)) (i + 1) (marker + 1) := by
  obtain ⟨_, opm, hopm, hinstrm⟩ := hmarks
  obtain ⟨hle, hbetween⟩ := nextLive_eq_some hnext
  apply leads_loose (by omega)
  intro k hlow hhigh
  have hloose : ∃ opk, body[k]? = some opk ∧ opk.instruction.isLoose = true := by
    by_cases hk : k = marker
    · refine ⟨opm, hk ▸ hopm, ?_⟩
      rw [hinstrm]
      rfl
    · obtain ⟨opk, hopk, hremoved⟩ := hbetween k hlow (by omega)
      exact ⟨opk, hopk, isLoose_of_isRemoved hremoved⟩
  obtain ⟨opk, hopk, hloose⟩ := hloose
  rcases dropNoopAt_cases index hopk with hsame | ⟨hgone, _⟩
  · exact ⟨opk, hsame, hloose⟩
  · exact ⟨opk.remove, hgone, rfl⟩

/-- **A jump to the next instruction does nothing**, and can be taken out: the run goes on to the
marker right behind it in any case. -/
theorem refines_dropNoopAt (index : Nat) (h : Resolved body) :
    Refines body (dropNoopAt body index) := by
  refine (drops_dropNoopAt body index).refines h ?_
  apply SameRuns.symm
  apply sameRuns_of_shortcut
  intro i
  cases hop : body[i]? with
  | none =>
      rw [indexFlow_of_none (dropNoopAt_trims body index).length_eq hop]
      exact .same _
  | some op =>
      rcases dropNoopAt_cases index hop with hsame | ⟨hgone, target, marker, hinstr, hmarker, hnext⟩
      · unfold indexFlow
        rw [flowBy_eq hop, flowBy_eq hsame]
        exact .same _
      · have haims : Aims body target := by
          refine ⟨op, List.mem_of_getElem? hop, ?_⟩
          rw [hinstr]
          rfl
        obtain ⟨marker', hmarker', hmarks⟩ := h target haims
        rw [hmarker] at hmarker'
        cases hmarker'
        have hlong : indexFlow (dropNoopAt body index) i = .go (i + 1) := by
          unfold indexFlow
          rw [flowBy_eq hgone]
          rfl
        have hshort : indexFlow body i = .go (marker + 1) := by
          unfold indexFlow
          rw [flowBy_eq hop, hinstr]
          simp only [moveOf, hmarker]
        rw [hlong, hshort]
        exact .go (leads_past_noop index hmarks hnext)

/-- Taking out all jumps to the next instruction refines a body. -/
theorem refines_removeNoopJumps (h : Resolved body) : Refines body (removeNoopJumps body) :=
  Refines.foldl (fun _ index => refines_dropNoopAt index) (List.range body.length) h

end Steps

section Rounds

variable {body out : List Op} {label : String}

/-- With distinct markers every jump that knows its index names one marker. -/
theorem Distinct.pointed (h : Distinct body) (hresolved : Resolved body) : Pointed body := by
  intro target haims
  obtain ⟨index, _, hmarks⟩ := hresolved target haims
  exact ⟨index, hmarks, fun other hother => h other index _ hother hmarks⟩

theorem Distinct.headsApart (h : Distinct body) : HeadsApart body :=
  fun _ _ _ _ _ _ first first' name _ _ _ _ hmarks hmarks' => h first first' name hmarks hmarks'

/-- With distinct markers it is the same to go by names or by indices. -/
theorem Distinct.flow_eq (h : Distinct body) (hresolved : Resolved body) :
    flow body = indexFlow body := by
  funext i
  unfold flow indexFlow
  cases hop : body[i]? with
  | none => rw [flowBy_eq_stop hop, flowBy_eq_stop hop]
  | some op =>
      rw [flowBy_eq hop, flowBy_eq hop]
      cases htarget : op.instruction.target? with
      | none => exact moveOf_plain htarget _ _ i
      | some target =>
          obtain ⟨index, hindex, hmarks⟩ :=
            hresolved target ⟨op, List.mem_of_getElem? hop, htarget⟩
          have hfound := h.markerIndex?_eq hmarks
          generalize op.instruction = instruction at htarget
          cases instruction with
          | jump | branch =>
              cases htarget
              simp only [moveOf, hfound, hindex]
          | _ => cases htarget

/-- A resolved body, with the heads that its jumps go to. -/
theorem Resolves.aims (h : Resolves body out) (htrims : Trims Instruction.isMarker body out)
    {target : Target} (haims : Aims out target) :
    ∃ (first index : Nat) (old : Target), target.index = some first ∧ Aims body old ∧
      Marks body index old.marker ∧ Heads body first index ∧ Marks body first target.marker ∧
      Marks out first target.marker := by
  obtain ⟨op', hmem, htarget⟩ := haims
  obtain ⟨i, hi⟩ := List.mem_iff_getElem?.mp hmem
  obtain ⟨op, hop, htrim⟩ := htrims.exists_old hi
  have hlive : op'.instruction ≠ .removed := by
    intro hremoved
    rw [hremoved] at htarget
    cases htarget
  obtain ⟨new, rfl⟩ := htrim.eq_redirect hlive
  cases hold : op.instruction.target? with
  | none =>
      rw [instruction_redirect hold, hold] at htarget
      cases htarget
  | some old =>
      obtain ⟨landing, index, hmarks, hheads, hname, hop'⟩ := h.target i op old hop hold
      rw [hi] at hop'
      rw [Option.some.inj hop', target?_redirect hold] at htarget
      cases htarget
      exact ⟨landing.index, index, old, rfl, ⟨op, List.mem_of_getElem? hop, hold⟩, hmarks, hheads,
        hname, h.head _ _ _ hheads hname⟩

/-- Where jumps have been looked up, they know where they go. -/
theorem resolved_of_resolve {resolved : List Op} (h : resolve label body = .ok resolved) :
    Resolved resolved := by
  intro target haims
  obtain ⟨first, _, _, hindex, _, _, _, _, hmarks⟩ :=
    (resolves_of_resolve h).aims (resolve_trims h) haims
  exact ⟨first, hindex, hmarks⟩

/-- **What a round leaves knows where it goes.** -/
theorem round_resolved {out : List Op} (h : round label body = .ok out) : Resolved out := by
  obtain ⟨resolved, hresolve, hout⟩ := bind_eq_ok.mp h
  cases hout
  have h1 := refines_stripAfter Instruction.isReturn (fun _ => .inr) (resolved_of_resolve hresolve)
  have h2 := refines_removeUnusedMarkers (refines_threadAll h1.resolved).resolved
  have h3 := refines_stripAfter Instruction.isJump (fun _ => .inl) h2.resolved
  exact (refines_removeNoopJumps h3.resolved).resolved

/-- **A round keeps runs**, and what the next round needs. Under these hypotheses it does not fail,
so they carry over to any number of rounds. -/
theorem round_keeps_runs (hpointed : Pointed body) (hapart : HeadsApart body) :
    ∃ out, round label body = .ok out ∧ SameRuns (flow body) (flow out) ∧ Pointed out ∧
      HeadsApart out := by
  obtain ⟨resolved, hresolve⟩ := exists_resolve label fun target haims =>
    (hpointed target haims).imp fun _ hmarks => hmarks.1
  have hresolves := resolves_of_resolve hresolve
  have htrims := resolve_trims hresolve
  have h1 := refines_stripAfter Instruction.isReturn (fun _ => .inr) (resolved_of_resolve hresolve)
  have h2 := h1.trans (refines_threadAll h1.resolved)
  have h3 := h2.trans (refines_removeUnusedMarkers h2.resolved)
  have h4 := refines_stripAfter Instruction.isJump (fun _ => .inl) h3.resolved
  have h5 := h4.trans (refines_removeNoopJumps h4.resolved)
  have hall := h3.trans h5
  have hdistinct : Distinct (removeNoopJumps (stripAfter Instruction.isJump false
      (removeUnusedMarkers (threadAll (stripAfter Instruction.isReturn false resolved))))) := by
    have hhead : ∀ {index : Nat} {name : String}, Marks (removeNoopJumps (stripAfter
        Instruction.isJump false (removeUnusedMarkers (threadAll (stripAfter Instruction.isReturn
          false resolved))))) index name →
        Marks body index name ∧ ∃ (marker : Nat) (old : Target), Aims body old ∧
          Marks body marker old.marker ∧ Heads body index marker := by
      intro index name hmarks
      obtain ⟨target, haims, hindex⟩ := exists_target_of_marks (h5.marks _ _ hmarks)
      obtain ⟨first, marker, old, hfirst, hold, hmarker, hheads, _, _⟩ :=
        hresolves.aims htrims (h2.aims target haims)
      rw [hindex] at hfirst
      cases hfirst
      exact ⟨htrims.marks (hall.marks _ _ hmarks), marker, old, hold, hmarker, hheads⟩
    intro index index' name hmarks hmarks'
    obtain ⟨hname, marker, old, hold, hmarker, hheads⟩ := hhead hmarks
    obtain ⟨hname', marker', old', hold', hmarker', hheads'⟩ := hhead hmarks'
    exact hapart old old' hold hold' marker marker' index index' name hmarker hmarker' hheads
      hheads' hname hname'
  refine ⟨_, bind_eq_ok.mpr ⟨resolved, hresolve, rfl⟩, ?_, hdistinct.pointed hall.resolved,
    hdistinct.headsApart⟩
  rw [hdistinct.flow_eq hall.resolved]
  exact (sameRuns_resolve hpointed hresolves).trans hall.runs

/-- The first round, and what follows if it changes something. -/
theorem settle_succ {fuel : Nat} {next : List Op} (h : round label body = .ok next) :
    settle label (fuel + 1) body = if next = body then .ok next else settle label fuel next := by
  rw [settle, h]
  rfl

theorem settle_resolved {fuel : Nat} {out : List Op} (h : settle label (fuel + 1) body = .ok out) :
    Resolved out := by
  obtain ⟨next, hnext, h⟩ := bind_eq_ok.mp h
  have hresolved := round_resolved hnext
  split at h
  · cases h
    exact hresolved
  · exact settle_induction (fun _ _ _ hround => round_resolved hround) hresolved h

/-- **Rounds keep runs.** -/
theorem settle_keeps_runs (label : String) (fuel : Nat) (hpointed : Pointed body) (hapart : HeadsApart body) :
    ∃ out, settle label fuel body = .ok out ∧ SameRuns (flow body) (flow out) := by
  induction fuel generalizing body with
  | zero => exact ⟨body, rfl, .refl _⟩
  | succ fuel ih =>
      obtain ⟨next, hnext, hruns, hpointed', hapart'⟩ := round_keeps_runs hpointed hapart
      by_cases hsame : next = body
      · refine ⟨next, ?_, hruns⟩
        rw [settle_succ hnext, if_pos hsame]
      · obtain ⟨out, hout, hrest⟩ := ih hpointed' hapart'
        refine ⟨out, ?_, hruns.trans hrest⟩
        rw [settle_succ hnext, if_neg hsame]
        exact hout

/-- A settled body whose operands are indices is the simplified one. -/
theorem simplify_of_settle {f : Function} {settled : List Op}
    (h : settle f.label (roundLimit f.body) f.body = .ok settled) (hclosed : Closed settled) :
    f.simplify = .ok { f with body := withLastUses settled } := by
  unfold Function.simplify
  rw [orFail_eq_ok.mpr h]
  exact if_pos hclosed

/-- Trimming names no new operands. -/
theorem Trims.closed {may : Instruction → Bool} (h : Trims may body out) (hclosed : Closed body) :
    Closed out := by
  intro op' hmem r hr
  obtain ⟨i, hi⟩ := List.mem_iff_getElem?.mp hmem
  obtain ⟨op, hop, ⟨_, rfl⟩ | ⟨target, rfl⟩⟩ := h.exists_old hi
  · cases hr
  · rw [Op.operands_redirect] at hr
    rw [h.length_eq]
    exact hclosed op (List.mem_of_getElem? hop) r hr

/-- Where a run goes depends on the instructions only. -/
theorem flow_congr (h : codeOf body = codeOf out) : flow body = flow out := by
  have hat : ∀ (ops : List Op) (name : String), markerIndex? ops name =
      ((codeOf ops).tail.findIdx? fun i => decide (i = .marker name)).map (· + 1) := by
    intro ops name
    unfold markerIndex? codeOf
    rw [← List.map_tail, List.findIdx?_map]
    rfl
  have hmove : ∀ (dest : Target → Option Nat) (ops : List Op) (i : Nat), flowBy dest ops i =
      match (codeOf ops)[i]? with
      | some instruction => moveOf dest i instruction
      | none => .stop := by
    intro dest ops i
    unfold flowBy codeOf
    rw [List.getElem?_map]
    cases ops[i]? with
    | none => rfl
    | some op => rfl
  funext i
  unfold flow
  rw [hmove, hmove]
  simp only [hat, h]

/-- Where a run of a pointed body stops, there is a return or the end. -/
theorem eq_ret_of_flow_eq_stop (hpointed : Pointed body) {i : Nat} {op : Op}
    (h : flow body i = .stop) (hop : body[i]? = some op) : ∃ value, op.instruction = .ret value := by
  unfold flow at h
  rw [flowBy_eq hop] at h
  have hfound : ∀ target, op.instruction.target? = some target →
      ∃ index, markerIndex? body target.marker = some index := by
    intro target htarget
    obtain ⟨index, hmarks, honly⟩ := hpointed target ⟨op, List.mem_of_getElem? hop, htarget⟩
    exact ⟨index, markerIndex?_eq_some hmarks honly⟩
  generalize op.instruction = instruction at h hfound
  cases instruction with
  | ret value => exact ⟨value, rfl⟩
  | jump target | branch _ _ target =>
      obtain ⟨index, hindex⟩ := hfound target rfl
      simp only [moveOf, hindex] at h
      cases h
  | _ => cases h

/-- A function whose jumps lead somewhere and whose operands are indices can be
simplified. -/
theorem exists_simplify {f : Function} (hpointed : Pointed f.body) (hapart : HeadsApart f.body)
    (hclosed : Closed f.body) : ∃ g, f.simplify = .ok g := by
  obtain ⟨settled, hsettle, _⟩ := settle_keeps_runs f.label (roundLimit f.body) hpointed hapart
  exact ⟨_, simplify_of_settle hsettle ((settle_trims hsettle).closed hclosed)⟩

/-- **The body of the simplified function has the runs of the body.** -/
theorem sameRuns_of_simplify {f g : Function} (hpointed : Pointed f.body)
    (hapart : HeadsApart f.body) (h : f.simplify = .ok g) : SameRuns (flow f.body) (flow g.body) := by
  obtain ⟨settled, hsettle, hruns⟩ :=
    settle_keeps_runs f.label (roundLimit f.body) hpointed hapart
  obtain ⟨body, hbody, _, rfl⟩ := simplify_eq_ok h
  rw [hsettle] at hbody
  cases hbody
  rw [flow_congr (codeOf_withLastUses settled)]
  exact hruns

/-- Two ops that are equal up to the target and the last use. -/
def Op.Alike (op op' : Op) : Prop :=
  ∃ target lastUse, op' = { op.redirect target with lastUse := lastUse }

/-- **Simplification keeps runs.**  Take a function in which every jump names exactly one
marker behind the entry, and the runs of markers into which jumps lead have heads of
different names.  If its operands are indices of the body, it can be simplified.  Then
the body keeps its length, and every op that is not taken out stays as it was up to its
target and its last use.  Whatever the instructions and conditions mean, the two bodies
carry out the same instructions and decide the same branches in the same order, and
stop with the same state at the same return or both behind the body, or both go on for
ever. -/
theorem simplify_keeps_runs (f : Function) (hpointed : Pointed f.body)
    (hapart : HeadsApart f.body) :
    (Closed f.body → ∃ g, f.simplify = .ok g) ∧
    ∀ g, f.simplify = .ok g →
      g.body.length = f.body.length ∧
      (∀ (i : Nat) op op', f.body[i]? = some op → g.body[i]? = some op' →
        op'.instruction ≠ .removed → op.Alike op') ∧
      SameRuns (flow f.body) (flow g.body) ∧
      ∀ (σ : Type) (m : Meaning σ) (state : σ) (c : Config σ),
        (flow f.body).Stops m (.start state) c →
          f.body.length ≤ c.index ∨ ∃ op op' value, f.body[c.index]? = some op ∧
            g.body[c.index]? = some op' ∧ op.instruction = .ret value ∧
            op'.instruction = .ret value := by
  constructor
  · exact exists_simplify hpointed hapart
  · intro g hg
    have hruns := sameRuns_of_simplify hpointed hapart hg
    obtain ⟨settled, hsettle, _, rfl⟩ := simplify_eq_ok hg
    have htrims := settle_trims hsettle
    refine ⟨?_, ?_, hruns, ?_⟩
    · rw [← htrims.length_eq]
      exact List.length_mapIdx
    · intro i op op' hop hop' hlive
      obtain ⟨settledOp, hsettled, rfl⟩ := exists_of_withLastUses hop'
      obtain ⟨target, rfl⟩ := (htrims.trimmed i op settledOp hop hsettled).eq_redirect hlive
      exact ⟨target, _, rfl⟩
    · intro σ m state c hstops
      cases hop : f.body[c.index]? with
      | none => exact .inl (List.getElem?_eq_none_iff.mp hop)
      | some op =>
          obtain ⟨value, hret⟩ :=
            eq_ret_of_flow_eq_stop hpointed (Flow.eq_stop_of_step hstops.2) hop
          obtain ⟨op', hop', htrim⟩ := htrims.exists_new hop
          have hstop := Flow.eq_stop_of_step (((hruns σ m state).1 c).mp hstops).2
          have hlive : op'.instruction ≠ .removed := by
            intro hremoved
            rw [flow_congr (codeOf_withLastUses settled)] at hstop
            unfold flow at hstop
            rw [flowBy_eq hop', hremoved] at hstop
            cases hstop
          obtain ⟨target, rfl⟩ := htrim.eq_redirect hlive
          refine .inr ⟨op, _, value, rfl, by rw [withLastUses_getElem?, hop']; rfl, hret, ?_⟩
          show (op.redirect target).instruction = .ret value
          rw [instruction_redirect (by rw [hret]; rfl)]
          exact hret

/-- A loop with a marker too many, a jump to a jump, and dead code. -/
def hopping : Function where
  label := "f"
  body := opsAt none [
    .marker "f",
    .marker "top",
    .marker "again",
    .nop,
    .branch true 3 { marker := "out" },
    .jump { marker := "hop" },
    .halt,
    .marker "hop",
    .jump { marker := "again" },
    .marker "out",
    .ret none,
    .pause]

/-- Simplifying the loop keeps its runs. -/
theorem simplify_keeps_runs_hopping : Pointed hopping.body ∧ HeadsApart hopping.body ∧
    ∃ g, hopping.simplify = .ok g ∧ g.body.length = 12 ∧
      SameRuns (flow hopping.body) (flow g.body) := by
  have hpointed : Pointed hopping.body := by decide
  have hdistinct : Distinct hopping.body := by decide
  obtain ⟨hexists, hall⟩ := simplify_keeps_runs hopping hpointed hdistinct.headsApart
  obtain ⟨g, hg⟩ := hexists (by decide)
  obtain ⟨hlength, _, hruns, _⟩ := hall g hg
  exact ⟨hpointed, hdistinct.headsApart, g, hg, hlength, hruns⟩

/-- Where no op jumps, there is nothing to thread. -/
theorem threadAll_eq_self (h : ∀ op ∈ body, op.instruction.isJump = false) :
    threadAll body = body := by
  have hfollow : ∀ fresh target, follow body fresh target = target := by
    intro fresh target
    unfold follow
    cases hjump : jumpAfter? body target with
    | none => rfl
    | some found =>
        obtain ⟨_, op, _, _, hop, hinstr⟩ := jumpAfter?_eq_some hjump
        have hno := h op (List.mem_of_getElem? hop)
        rw [hinstr] at hno
        cases hno
  have hstep : ∀ index, threadAt body index = body := by
    intro index
    apply List.ext_getElem?
    intro i
    unfold threadAt
    rw [getElem?_modify_eq]
    split
    · cases body[i]? with
      | none => rfl
      | some op =>
          rw [Option.map_some]
          cases htarget : op.instruction.target? with
          | none => rfl
          | some target => simp only [hfollow, retarget_self htarget]
    · rfl
  have hfold : ∀ indices : List Nat, indices.foldl threadAt body = body := by
    intro indices
    induction indices with
    | nil => rfl
    | cons index rest ih => rw [List.foldl_cons, hstep, ih]
  exact hfold _

/-- A round over ops that do not jump. -/
theorem round_of_no_jump (hresolve : resolve label body = .ok out)
    (h : ∀ op ∈ stripAfter Instruction.isReturn false out, op.instruction.isJump = false) :
    round label body = .ok (removeNoopJumps (stripAfter Instruction.isJump false
      (removeUnusedMarkers (stripAfter Instruction.isReturn false out)))) := by
  unfold round
  rw [hresolve]
  show Except.ok (removeNoopJumps (stripAfter Instruction.isJump false (removeUnusedMarkers
    (threadAll (stripAfter Instruction.isReturn false out))))) = _
  rw [threadAll_eq_self h]

/-- Two runs of markers whose heads have one name. -/
def twinHeads : Function where
  label := "f"
  body := opsAt none [
    .marker "f",
    .marker "a",
    .marker "b",
    .nop,
    .marker "a",
    .marker "c",
    .halt,
    .branch true 0 { marker := "b" },
    .branch true 0 { marker := "c" },
    .ret none]

/-- The two runs of markers, merged, with branches that go to the index of a marker. -/
def twinHeadsTo (marker : Nat) (entry : Instruction) : List Op :=
  opsAt none [
    .marker "f",
    entry,
    .removed,
    .nop,
    .marker "a",
    .removed,
    .halt,
    .branch true 0 { marker := "a", index := some marker },
    .branch true 0 { marker := "a", index := some 4 },
    .ret none]

/-- In the second round the names of the heads are confused, and both branches go to
the second run. -/
theorem settle_twinHeads :
    settle "f" (roundLimit twinHeads.body) twinHeads.body = .ok (twinHeadsTo 4 .removed) := by
  have hfirst : round "f" twinHeads.body = .ok (twinHeadsTo 1 (.marker "a")) := by
    have hresolve : resolve "f" twinHeads.body = .ok (twinHeadsTo 1 (.marker "a")) := rfl
    exact round_of_no_jump hresolve (by decide)
  have hsecond : round "f" (twinHeadsTo 1 (.marker "a")) = .ok (twinHeadsTo 4 .removed) := by
    have hresolve : resolve "f" (twinHeadsTo 1 (.marker "a")) =
        .ok (twinHeadsTo 4 (.marker "a")) := rfl
    exact round_of_no_jump hresolve (by decide)
  have hthird : round "f" (twinHeadsTo 4 .removed) = .ok (twinHeadsTo 4 .removed) := by
    have hresolve : resolve "f" (twinHeadsTo 4 .removed) = .ok (twinHeadsTo 4 .removed) := rfl
    exact round_of_no_jump hresolve (by decide)
  show settle "f" (31 + 1 + 1 + 1) twinHeads.body = _
  rw [settle_succ hfirst, if_neg (by decide), settle_succ hsecond, if_neg (by decide),
    settle_succ hthird, if_pos rfl]

/-- The instruction at 6 counts, and the branch at 7 is taken after the first count. -/
def countHalts : Meaning Nat where
  act index count := if index = 6 then count + 1 else count
  holds index count := index == 7 && count == 1

/-- **It does not suffice that every jump names one marker.**  The branch at 7 goes back to
the instruction at 3, but after simplification it goes on behind it. -/
theorem simplify_loses_runs_twinHeads : Pointed twinHeads.body ∧ Closed twinHeads.body ∧
    ∃ g, twinHeads.simplify = .ok g ∧ ¬SameRuns (flow twinHeads.body) (flow g.body) := by
  refine ⟨by decide, by decide, _, simplify_of_settle settle_twinHeads (by decide), ?_⟩
  rw [flow_congr (codeOf_withLastUses _)]
  intro hsame
  have hbefore : (flow twinHeads.body).Stops countHalts (.start 0) ⟨9, 2, [.act 3, .act 6,
      .test 7 true, .act 3, .act 6, .test 7 false, .test 8 false]⟩ :=
    ⟨⟨14, by decide⟩, by decide⟩
  have hafter : (flow (twinHeadsTo 4 .removed)).Stops countHalts (.start 0) ⟨9, 2, [.act 3, .act 6,
      .test 7 true, .act 6, .test 7 false, .test 8 false]⟩ :=
    ⟨⟨12, by decide⟩, by decide⟩
  have hboth := (((hsame Nat countHalts 0).1 _).mp hbefore).unique hafter
  revert hboth
  decide

end Rounds

end Stackless.Flat
