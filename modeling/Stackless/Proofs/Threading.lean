import Mathlib.Data.List.Basic
import Mathlib.Data.List.Nodup
import Stackless.Proofs.Simplification

/-!
# Threading jumps once is enough

A jump to a jump is sent to where the second one goes.  The jumps that are followed from a target
are its **hops**; they end where no jump comes next, or go round in a ring.  Jumps are threaded
one after the other in the same body, so what one of them follows may have been threaded before.

* `follow_hops`, `follow_of_hops` — a target is followed along hops over different jumps, as long
  as the next jump is a new one, and that settles where it ends;
* `Stable` — targets that are followed to themselves: no jump comes next, or a ring leads back;
* `stable_follow` — a target is followed to a stable one, since a jump can be hopped onto from one
  target only (`jumpAfter?_inj`);
* `Stable.threadAt` — threading a jump keeps stable targets stable: a jump in a ring already goes
  to a stable target, and is left alone;
* `stable_threadAll`, `threadAll_of_stable` — so all targets are stable once all jumps are threaded,
  and threading them a second time would change nothing.
-/

namespace Stackless.Flat

variable {body : List Op}

/-- The jumps that are followed from one target to another. -/
inductive Hops (body : List Op) : Target → List Nat → Target → Prop
  | nil (target : Target) : Hops body target [] target
  | cons {target mid final : Target} {jump : Nat} {jumps : List Nat} :
      jumpAfter? body target = some (jump, mid) → Hops body mid jumps final →
      Hops body target (jump :: jumps) final

namespace Hops

variable {target mid final : Target} {jumps jumps' : List Nat}

theorem append (h : Hops body target jumps mid) (h' : Hops body mid jumps' final) :
    Hops body target (jumps ++ jumps') final := by
  induction h with
  | nil => exact h'
  | cons hjump _ ih => exact .cons hjump (ih h')

/-- Hops can be interrupted anywhere. -/
theorem split : ∀ {jumps : List Nat} {target : Target}, Hops body target (jumps ++ jumps') final →
    ∃ mid, Hops body target jumps mid ∧ Hops body mid jumps' final
  | [], target, h => ⟨target, .nil target, h⟩
  | jump :: jumps, target, h => by
    cases h with
    | cons hjump hrest =>
        obtain ⟨mid, hfirst, hlast⟩ := split hrest
        exact ⟨mid, .cons hjump hfirst, hlast⟩

/-- Hops start from targets of the body and end at them. -/
theorem aims (h : Hops body target jumps final) (haims : Aims body target) : Aims body final := by
  induction h with
  | nil => exact haims
  | cons hjump _ ih =>
      obtain ⟨_, op, _, _, hop, hinstr⟩ := jumpAfter?_eq_some hjump
      exact ih ⟨op, List.mem_of_getElem? hop, by rw [hinstr]; rfl⟩

/-- Jumps stand in the body. -/
theorem lt_length (h : Hops body target jumps final) : ∀ jump ∈ jumps, jump < body.length := by
  induction h with
  | nil => exact fun jump hmem => absurd hmem List.not_mem_nil
  | cons hjump _ ih =>
      intro jump hmem
      obtain ⟨_, op, _, _, hop, _⟩ := jumpAfter?_eq_some hjump
      rcases List.mem_cons.mp hmem with rfl | hmem
      · exact (List.getElem?_eq_some_iff.mp hop).1
      · exact ih jump hmem

end Hops

/-- **Following makes hops over new jumps**, until none comes next or it is not new. -/
theorem follow_hops (body : List Op) {fresh : List Nat} (target : Target) (hfresh : fresh.Nodup) :
    ∃ jumps, Hops body target jumps (follow body fresh target) ∧ jumps.Nodup ∧ jumps ⊆ fresh ∧
      ∀ next target', jumpAfter? body (follow body fresh target) = some (next, target') →
        next ∈ jumps ∨ next ∉ fresh := by
  fun_induction follow body fresh target with
  | case1 fresh target hnone =>
      refine ⟨[], .nil target, .nil, List.nil_subset _, fun next target' hnext => ?_⟩
      rw [hnone] at hnext
      cases hnext
  | case2 fresh target next target' hjump hmem ih =>
      obtain ⟨jumps, hhops, hnodup, hsub, hlast⟩ := ih (hfresh.erase next)
      have hnew : next ∉ jumps := fun h => hfresh.not_mem_erase (hsub h)
      refine ⟨next :: jumps, .cons hjump hhops, List.nodup_cons.mpr ⟨hnew, hnodup⟩, ?_, ?_⟩
      · exact List.cons_subset.mpr ⟨hmem, fun x hx => List.mem_of_mem_erase (hsub hx)⟩
      · intro other target'' hother
        by_cases heq : other = next
        · exact .inl (heq ▸ List.mem_cons_self)
        · rcases hlast other target'' hother with h | h
          · exact .inl (List.mem_cons_of_mem _ h)
          · exact .inr fun hin => h ((List.mem_erase_of_ne heq).mpr hin)
  | case3 fresh target next target' hjump hold =>
      refine ⟨[], .nil target, .nil, List.nil_subset _, fun other target'' hother => .inr ?_⟩
      rw [hjump] at hother
      cases hother
      exact hold

/-- **Where hops over new jumps end, following ends**, if no new jump comes next. Hops say what is
followed without the set of jumps that makes following end. -/
theorem follow_of_hops {jumps : List Nat} {target final : Target} (h : Hops body target jumps final)
    {fresh : List Nat} (hfresh : fresh.Nodup) (hnodup : jumps.Nodup) (hsub : jumps ⊆ fresh)
    (hlast : ∀ next target', jumpAfter? body final = some (next, target') →
      next ∈ jumps ∨ next ∉ fresh) : follow body fresh target = final := by
  induction h generalizing fresh with
  | nil target =>
      rw [follow]
      cases hjump : jumpAfter? body target with
      | none => rfl
      | some found =>
          obtain ⟨next, target'⟩ := found
          rcases hlast next target' hjump with h | h
          · cases h
          · exact dif_neg h
  | @cons target mid final jump jumps hjump _ ih =>
      obtain ⟨hnew, hrest⟩ := List.nodup_cons.mp hnodup
      obtain ⟨hmem, hsub⟩ := List.cons_subset.mp hsub
      rw [follow, hjump]
      show (if h : jump ∈ fresh then follow body (fresh.erase jump) mid else target) = final
      rw [dif_pos hmem]
      refine ih (hfresh.erase jump) hrest (fun x hx => ?_) fun next target' hnext => ?_
      · have hne : x ≠ jump := fun heq => hnew (heq ▸ hx)
        exact (List.mem_erase_of_ne hne).mpr (hsub hx)
      · rcases hlast next target' hnext with h | h
        · rcases List.mem_cons.mp h with rfl | h
          · exact .inr hfresh.not_mem_erase
          · exact .inl h
        · exact .inr fun hin => h (List.mem_of_mem_erase hin)

/-- A target that is followed to itself: no jump comes next, or a ring of jumps leads back. -/
def Stable (body : List Op) (target : Target) : Prop :=
  jumpAfter? body target = none ∨
    ∃ jumps, jumps ≠ [] ∧ jumps.Nodup ∧ Hops body target jumps target

/-- A stable target is followed to itself. -/
theorem Stable.follow_eq {target : Target} (h : Stable body target) :
    follow body (List.range body.length) target = target := by
  rcases h with hnone | ⟨jumps, hne, hnodup, hhops⟩
  · rw [follow, hnone]
  · refine follow_of_hops hhops List.nodup_range hnodup
      (fun x hx => List.mem_range.mpr (hhops.lt_length x hx)) fun next target' hnext => .inl ?_
    cases hhops with
    | nil => exact absurd rfl hne
    | cons hjump _ =>
        rw [hjump] at hnext
        cases hnext
        exact List.mem_cons_self

theorem Hops.congr {out : List Op}
    (hnext : ∀ target, jumpAfter? out target = jumpAfter? body target) {target final : Target} {jumps : List Nat} (h : Hops body target jumps final) :
    Hops out target jumps final := by
  induction h with
  | nil => exact .nil _
  | cons hjump _ ih => exact .cons ((hnext _).trans hjump) ih

theorem Stable.congr {out : List Op}
    (hnext : ∀ target, jumpAfter? out target = jumpAfter? body target) {target : Target}
    (h : Stable body target) : Stable out target :=
  h.imp (hnext target).trans fun ⟨jumps, hne, hnodup, hhops⟩ =>
    ⟨jumps, hne, hnodup, hhops.congr hnext⟩

/-- The jump at the start of hops that go on stands behind the target. -/
theorem jumpAfter?_of_hops {target final : Target} {jump : Nat} {jumps : List Nat}
    (h : Hops body target (jump :: jumps) final) :
    ∃ mid, jumpAfter? body target = some (jump, mid) ∧ Hops body mid jumps final := by
  cases h with
  | cons hjump hrest => exact ⟨_, hjump, hrest⟩

/-- **A jump is hopped onto from one target only.**  The markers of two targets stand before the
jump with nothing live in between, so they are one. -/
theorem jumpAfter?_inj (hresolved : Resolved body) {target target' mid mid' : Target} {jump : Nat}
    (haims : Aims body target) (haims' : Aims body target')
    (h : jumpAfter? body target = some (jump, mid))
    (h' : jumpAfter? body target' = some (jump, mid')) : target = target' := by
  obtain ⟨marker, _, hmarker, hnext, _⟩ := jumpAfter?_eq_some h
  obtain ⟨marker', _, hmarker', hnext', _⟩ := jumpAfter?_eq_some h'
  obtain ⟨index, hindex, _, op, hop, hinstr⟩ := hresolved target haims
  obtain ⟨index', hindex', _, op', hop', hinstr'⟩ := hresolved target' haims'
  obtain rfl : index = marker := Option.some.inj (hindex.symm.trans hmarker)
  obtain rfl : index' = marker' := Option.some.inj (hindex'.symm.trans hmarker')
  obtain ⟨hle, hgone⟩ := nextLive_eq_some hnext
  obtain ⟨hle', hgone'⟩ := nextLive_eq_some hnext'
  have hsame : index = index' := by
    rcases Nat.lt_trichotomy index index' with hlt | heq | hlt
    · obtain ⟨dead, hdead, hremoved⟩ := hgone index' (by omega) (by omega)
      rw [hop'] at hdead
      cases hdead
      rw [hinstr'] at hremoved
      cases hremoved
    · exact heq
    · obtain ⟨dead, hdead, hremoved⟩ := hgone' index (by omega) (by omega)
      rw [hop] at hdead
      cases hdead
      rw [hinstr] at hremoved
      cases hremoved
  subst hsame
  rw [hop] at hop'
  cases hop'
  rw [hinstr] at hinstr'
  obtain ⟨name, place⟩ := target
  obtain ⟨name', place'⟩ := target'
  cases hinstr'
  cases hindex
  cases hindex'
  rfl

/-- **A target is followed to a stable one.**  Either no jump comes next, or the next one was
followed before, and a ring of jumps leads back to the target. -/
theorem stable_follow (hresolved : Resolved body) {target : Target} (haims : Aims body target) :
    Stable body (follow body (List.range body.length) target) := by
  obtain ⟨jumps, hhops, hnodup, _, hlast⟩ :=
    follow_hops body target (List.nodup_range (n := body.length))
  generalize follow body (List.range body.length) target = final at hhops hlast
  cases hjump : jumpAfter? body final with
  | none => exact .inl hjump
  | some found =>
      obtain ⟨next, mid⟩ := found
      obtain ⟨_, op, _, _, hop, _⟩ := jumpAfter?_eq_some hjump
      have hlt : next ∈ List.range body.length :=
        List.mem_range.mpr (List.getElem?_eq_some_iff.mp hop).1
      have hpassed : next ∈ jumps := (hlast next mid hjump).resolve_right (not_not_intro hlt)
      obtain ⟨before, after, rfl⟩ := List.append_of_mem hpassed
      obtain ⟨start, hbefore, hring⟩ := hhops.split
      obtain ⟨_, hstart, _⟩ := jumpAfter?_of_hops hring
      obtain rfl : start = final :=
        jumpAfter?_inj hresolved (hbefore.aims haims) (hhops.aims haims) hstart hjump
      exact .inr ⟨next :: after, List.cons_ne_nil _ _, (List.nodup_append.mp hnodup).2.1, hring⟩

/-- All targets of a ring are stable. -/
theorem stable_of_ring {target mid : Target} {before after : List Nat} {jump : Nat}
    (h : Hops body target (before ++ jump :: after) target)
    (hnodup : (before ++ jump :: after).Nodup)
    {op : Op} (hop : body[jump]? = some op) (htarget : op.instruction.target? = some mid) :
    Stable body mid := by
  obtain ⟨start, hbefore, hring⟩ := h.split
  obtain ⟨mid', hjump, hafter⟩ := jumpAfter?_of_hops hring
  obtain ⟨_, op', _, _, hop', hinstr'⟩ := jumpAfter?_eq_some hjump
  obtain rfl : mid' = mid := by
    rw [hop] at hop'
    cases hop'
    rw [hinstr'] at htarget
    exact Option.some.inj htarget
  refine .inr ⟨after ++ (before ++ [jump]), by simp, ?_,
    hafter.append (hbefore.append (.cons hjump (.nil _)))⟩
  have hperm : (after ++ (before ++ [jump])).Perm (before ++ jump :: after) := by
    rw [List.append_cons before jump after]
    exact List.perm_append_comm
  exact hperm.nodup_iff.mpr hnodup

/-- What is live next depends on what was taken out. -/
theorem nextLive_congr {body' : List Op}
    (h : body'.map (·.instruction.isRemoved) = body.map (·.instruction.isRemoved)) (start : Nat) :
    nextLive body' start = nextLive body start := by
  have hfind : ∀ ops : List Op, ops.findIdx? (fun op => !op.instruction.isRemoved) =
      (ops.map (·.instruction.isRemoved)).findIdx? (!·) := fun ops => by
    rw [List.findIdx?_map]
    rfl
  rw [nextLive, nextLive, hfind, hfind, List.map_drop, List.map_drop, h]

/-- What stands at an index after the jump at one index was threaded. -/
theorem threadAt_getElem? (body : List Op) (index i : Nat) :
    (threadAt body index)[i]? = body[i]?.map fun op =>
      if index = i then
        match op.instruction.target? with
        | none => op
        | some target => op.redirect (follow body (List.range body.length) target)
      else op := by
  rw [threadAt, getElem?_modify_eq]
  split
  · rfl
  · exact Option.map_id'.symm

/-- Threading takes nothing out, so that the same is live next. -/
theorem nextLive_threadAt (body : List Op) (index start : Nat) :
    nextLive (threadAt body index) start = nextLive body start := by
  refine nextLive_congr (List.ext_getElem? fun i => ?_) start
  rw [List.getElem?_map, List.getElem?_map, threadAt_getElem?, Option.map_map]
  congr 1
  funext op
  dsimp only [Function.comp]
  split
  · split
    · rfl
    · exact isRemoved_retarget op.instruction _
  · rfl

/-- The jump that comes next after the jump at one index was threaded. -/
theorem jumpAfter?_threadAt (body : List Op) (index : Nat) (target : Target) :
    jumpAfter? (threadAt body index) target = (jumpAfter? body target).map fun found =>
      (found.1, if index = found.1 then follow body (List.range body.length) found.2
        else found.2) := by
  unfold jumpAfter?
  cases target.index with
  | none => rfl
  | some marker =>
      simp only [Option.bind_eq_bind, Option.bind_some, nextLive_threadAt]
      cases nextLive body (marker + 1) with
      | none => rfl
      | some next =>
          simp only [Option.bind_some, threadAt_getElem?]
          cases body[next]? with
          | none => rfl
          | some op =>
              obtain ⟨instruction, offset, lastUse, position⟩ := op
              by_cases heq : index = next
              · cases instruction with
                | jump => simp [heq, Instruction.target?, Op.redirect, Instruction.retarget]
                | branch => simp [heq, Instruction.target?, Op.redirect, Instruction.retarget]
                | _ => simp [heq, Instruction.target?]
              · cases instruction with
                | _ => simp [heq]

/-- An op that goes to a stable target is left alone. -/
theorem threadAt_eq_self {index : Nat}
    (h : ∀ op target, body[index]? = some op → op.instruction.target? = some target →
      Stable body target) : threadAt body index = body := by
  apply List.ext_getElem?
  intro i
  rw [threadAt_getElem?]
  cases hop : body[i]? with
  | none => rfl
  | some op =>
      rw [Option.map_some]
      split
      · rename_i heq
        subst heq
        split
        · rfl
        · rename_i target htarget
          rw [(h op target hop htarget).follow_eq, Op.redirect, retarget_self htarget]
      · rfl

/-- Hops over other jumps stay when one jump is threaded, since that changes no other op. -/
theorem Hops.threadAt {target final : Target} {jumps : List Nat} {index : Nat}
    (h : Hops body target jumps final) (hother : index ∉ jumps) :
    Hops (threadAt body index) target jumps final := by
  induction h with
  | nil => exact .nil _
  | @cons target mid final jump jumps hjump _ ih =>
      obtain ⟨hne, hrest⟩ := not_or.mp fun hor => hother (List.mem_cons.mpr hor)
      refine .cons ?_ (ih hrest)
      rw [jumpAfter?_threadAt, hjump, Option.map_some, if_neg hne]

/-- **Threading a jump keeps stable targets stable.**  A jump of a ring goes to a stable target
already, and is left alone. -/
theorem Stable.threadAt {target : Target} (h : Stable body target) (index : Nat) :
    Stable (threadAt body index) target := by
  rcases h with hnone | ⟨jumps, hne, hnodup, hhops⟩
  · exact .inl (by rw [jumpAfter?_threadAt, hnone]; rfl)
  · by_cases hmem : index ∈ jumps
    · obtain ⟨before, after, rfl⟩ := List.append_of_mem hmem
      rw [threadAt_eq_self fun op mid hop htarget => stable_of_ring hhops hnodup hop htarget]
      exact .inr ⟨_, hne, hnodup, hhops⟩
    · exact .inr ⟨jumps, hne, hnodup, hhops.threadAt hmem⟩

/-- **Ops that were threaded go to stable targets**, also when others are threaded after them. -/
theorem stable_foldl_threadAt (hresolved : Resolved body) (n : Nat) :
    Resolved ((List.range n).foldl threadAt body) ∧
      ∀ i op target, i < n → ((List.range n).foldl threadAt body)[i]? = some op →
        op.instruction.target? = some target →
        Stable ((List.range n).foldl threadAt body) target := by
  induction n with
  | zero => exact ⟨hresolved, fun i op target hlt => absurd hlt (Nat.not_lt_zero i)⟩
  | succ n ih =>
      rw [List.range_succ, List.foldl_append]
      generalize (List.range n).foldl threadAt body = mid at ih
      obtain ⟨hmid, hstable⟩ := ih
      refine ⟨(refines_threadAt n hmid).resolved, fun i op target hlt hop htarget => ?_⟩
      show Stable (Flat.threadAt mid n) target
      change (Flat.threadAt mid n)[i]? = some op at hop
      refine Stable.threadAt ?_ n
      rw [threadAt_getElem?] at hop
      obtain ⟨old, hold, hop⟩ := Option.map_eq_some_iff.mp hop
      split at hop
      · split at hop
        · rename_i hnone
          subst hop
          rw [hnone] at htarget
          cases htarget
        · rename_i target' htarget'
          subst hop
          rw [target?_redirect htarget'] at htarget
          cases htarget
          exact stable_follow hmid ⟨old, List.mem_of_getElem? hold, htarget'⟩
      · subst hop
        exact hstable i old target (by omega) hold htarget

/-- **Threading leaves stable targets only.**  Jumps are threaded one after the other, and a target
that was stable before another jump is threaded is so afterwards. -/
theorem stable_threadAll (hresolved : Resolved body) {target : Target}
    (haims : Aims (threadAll body) target) : Stable (threadAll body) target := by
  obtain ⟨op, hmem, htarget⟩ := haims
  obtain ⟨i, hop⟩ := List.mem_iff_getElem?.mp hmem
  have hlt := (List.getElem?_eq_some_iff.mp hop).1
  rw [(threadAll_trims body).length_eq] at hlt
  exact (stable_foldl_threadAt hresolved body.length).2 i op target hlt hop htarget

/-- Where all targets are stable, there is nothing to thread. -/
theorem threadAll_of_stable (h : ∀ target, Aims body target → Stable body target) :
    threadAll body = body := by
  refine List.foldl_fixed' (fun index => threadAt_eq_self fun op target hop htarget => ?_) _
  exact h target ⟨op, List.mem_of_getElem? hop, htarget⟩

end Stackless.Flat
