import Stackless.Proofs.Settling

/-!
# The normal form of flat bodies

Simplification stops at a body that a round leaves alone.  What such a body looks like can be said
without the steps of a round: in terms of what is left, of what stands next to what, and of where
jumps go.

* `NormalForm` — jumps know their markers, and all markers are gone to; markers do not follow one
  another, and nothing is dead; no jump goes to the next instruction; and no jump goes to another
  one, unless that one comes back to itself (`Chained`);
* `Settled.normalForm` — what a round leaves alone is in normal form;
* `NormalForm.settled` — if its markers have different names, a body in normal form is left alone;
* `simplify_normalForm` — what simplification gives is in normal form.

A chain of jumps that comes to an end is therefore no longer than nothing (`NormalForm.collapsed`).
-/

namespace Stackless.Flat

open Relation (TransGen)

/-- The jump at one index goes to a marker right behind which stands the jump at another. -/
def Chained (body : List Op) (i j : Nat) : Prop :=
  ∃ target marker onward, (codeOf body)[i]? = some (.jump target) ∧ target.index = some marker ∧
    nextLive body (marker + 1) = some j ∧ (codeOf body)[j]? = some (.jump onward)

/-- A body that cannot be made simpler. It says of the code alone what no further step would find to
do, without mention of the steps. -/
structure NormalForm (body : List Op) : Prop where
  /-- Every jump knows the index of its marker. -/
  resolved : ∀ target, Aims body target →
    ∃ index, target.index = some index ∧ Marks body index target.marker
  /-- Every marker is gone to. -/
  used : ∀ index name, Marks body index name →
    ∃ target, Aims body target ∧ target.index = some index
  /-- No marker follows another. -/
  lone : ∀ index name next name', Marks body index name → nextLive body (index + 1) = some next →
    (codeOf body)[next]? ≠ some (.marker name')
  /-- Behind a return comes a marker, if anything. -/
  behind_ret : ∀ (i : Nat) value next, (codeOf body)[i]? = some (.ret value) →
    nextLive body (i + 1) = some next → ∃ name, (codeOf body)[next]? = some (.marker name)
  /-- Behind a jump comes a marker or a return, if anything. -/
  behind_jump : ∀ (i : Nat) target next, (codeOf body)[i]? = some (.jump target) →
    nextLive body (i + 1) = some next →
    (∃ name, (codeOf body)[next]? = some (.marker name)) ∨
      ∃ value, (codeOf body)[next]? = some (.ret value)
  /-- No jump goes to the next instruction. -/
  apart : ∀ (i : Nat) target, (codeOf body)[i]? = some (.jump target) →
    nextLive body (i + 1) ≠ target.index
  /-- A jump to a jump goes to one that comes back to itself. -/
  threaded : ∀ target marker next onward, Aims body target → target.index = some marker →
    nextLive body (marker + 1) = some next → (codeOf body)[next]? = some (.jump onward) →
    TransGen (Chained body) next next

section NextLive

variable {body : List Op}

/-- What is live next was not taken out. -/
theorem exists_of_nextLive {start next : Nat} (h : nextLive body start = some next) :
    ∃ op, body[next]? = some op ∧ op.instruction.isRemoved = false := by
  obtain ⟨n, hfind, rfl⟩ := Option.map_eq_some_iff.mp h
  obtain ⟨hlt, hlive, _⟩ := List.findIdx?_eq_some_iff_getElem.mp hfind
  refine ⟨(body.drop start)[n], ?_, by simpa using hlive⟩
  rw [← List.getElem?_drop]
  exact List.getElem?_eq_getElem hlt

/-- **What is left is next, or something before it is.** -/
theorem exists_nextLive {start k : Nat} {op : Op} (hle : start ≤ k) (hop : body[k]? = some op)
    (hlive : op.instruction.isRemoved = false) :
    ∃ next, next ≤ k ∧ nextLive body start = some next := by
  cases hnext : nextLive body start with
  | none =>
      rw [nextLive, Option.map_eq_none_iff, List.findIdx?_eq_none_iff] at hnext
      obtain ⟨n, rfl⟩ := Nat.exists_eq_add_of_le hle
      rw [← List.getElem?_drop] at hop
      have hgone := hnext op (List.mem_of_getElem? hop)
      rw [hlive] at hgone
      cases hgone
  | some next =>
      refine ⟨next, Nat.le_of_not_lt fun hlt => ?_, rfl⟩
      obtain ⟨dead, hdead, hgone⟩ := (nextLive_eq_some hnext).2 k hle hlt
      rw [hop] at hdead
      cases hdead
      rw [hlive] at hgone
      cases hgone

theorem eq_removed_of_isRemoved {x : Instruction} (h : x.isRemoved = true) : x = .removed := by
  cases x with
  | removed => rfl
  | _ => cases h

/-- Between an op and the next that is left nothing is left. -/
theorem removed_of_nextLive {start next k : Nat} (h : nextLive body start = some next)
    (hlow : start ≤ k) (hhigh : k < next) : (codeOf body)[k]? = some .removed := by
  obtain ⟨op, hop, hgone⟩ := (nextLive_eq_some h).2 k hlow hhigh
  rw [codeOf_getElem? hop, eq_removed_of_isRemoved hgone]

/-- The jump that comes next behind a target. -/
theorem jumpAfter?_iff {target onward : Target} {next : Nat} :
    jumpAfter? body target = some (next, onward) ↔ ∃ marker, target.index = some marker ∧
      nextLive body (marker + 1) = some next ∧ (codeOf body)[next]? = some (.jump onward) := by
  constructor
  · intro h
    obtain ⟨marker, op, hmarker, hnext, hop, hinstr⟩ := jumpAfter?_eq_some h
    exact ⟨marker, hmarker, hnext, by rw [codeOf_getElem? hop, hinstr]⟩
  · rintro ⟨marker, hmarker, hnext, hjump⟩
    obtain ⟨op, hop, hinstr⟩ := exists_of_codeOf_getElem? hjump
    simp [jumpAfter?, hmarker, hnext, hop, hinstr]

end NextLive

section Chains

variable {body : List Op}

/-- The jumps that are followed from one onto another form a chain. -/
theorem Hops.chained {target final onward : Target} {jumps : List Nat}
    (h : Hops body target jumps final) {i j : Nat}
    (hfirst : (codeOf body)[i]? = some (.jump target))
    (hlast : jumpAfter? body final = some (j, onward)) : TransGen (Chained body) i j := by
  have hstep : ∀ {i j : Nat} {target onward : Target}, (codeOf body)[i]? = some (.jump target) →
      jumpAfter? body target = some (j, onward) →
      Chained body i j ∧ (codeOf body)[j]? = some (.jump onward) := by
    intro i j target onward hjump hafter
    obtain ⟨marker, hmarker, hnext, honward⟩ := jumpAfter?_iff.mp hafter
    exact ⟨⟨target, marker, onward, hjump, hmarker, hnext, honward⟩, honward⟩
  induction h generalizing i with
  | nil => exact .single (hstep hfirst hlast).1
  | cons hjump _ ih =>
      obtain ⟨hchained, hmid⟩ := hstep hfirst hjump
      exact .head hchained (ih hmid hlast)

/-- A chain of jumps is followed by hops. -/
theorem exists_hops_of_chained {i j : Nat} (h : TransGen (Chained body) i j) {target : Target}
    (hfirst : (codeOf body)[i]? = some (.jump target)) :
    ∃ jumps final onward, Hops body target jumps final ∧
      jumpAfter? body final = some (j, onward) := by
  induction h using TransGen.head_induction_on generalizing target with
  | single hchained =>
      obtain ⟨target', marker, onward, hjump, hmarker, hnext, honward⟩ := hchained
      rw [hfirst] at hjump
      cases hjump
      exact ⟨[], target, onward, .nil target, jumpAfter?_iff.mpr ⟨marker, hmarker, hnext, honward⟩⟩
  | head hchained _ ih =>
      obtain ⟨target', marker, onward, hjump, hmarker, hnext, honward⟩ := hchained
      rw [hfirst] at hjump
      cases hjump
      obtain ⟨jumps, final, last, hhops, hlast⟩ := ih honward
      have hafter := jumpAfter?_iff.mpr ⟨marker, hmarker, hnext, honward⟩
      exact ⟨_, final, last, .cons hafter hhops, hlast⟩

/-- **Hops need not pass a jump twice.**  A jump is hopped onto from one target only, so what lies
between its two passages can be left out. -/
theorem Hops.exists_nodup (hresolved : Resolved body) {target final : Target} {jumps : List Nat}
    (h : Hops body target jumps final) (haims : Aims body target) :
    ∃ path, Hops body target path final ∧ path.Nodup ∧ (jumps ≠ [] → path ≠ []) := by
  induction h with
  | nil target => exact ⟨[], .nil target, List.nodup_nil, id⟩
  | @cons target mid final jump jumps hjump hrest ih =>
      have hmid : Aims body mid := Hops.aims (.cons hjump (.nil mid)) haims
      obtain ⟨path, hpath, hnodup, _⟩ := ih hmid
      by_cases hmem : jump ∈ path
      · obtain ⟨before, after, rfl⟩ := List.append_of_mem hmem
        obtain ⟨start, hbefore, hafter⟩ := hpath.split
        obtain ⟨_, hstart, _⟩ := jumpAfter?_of_hops hafter
        obtain rfl : start = target :=
          jumpAfter?_inj hresolved (hbefore.aims hmid) haims hstart hjump
        exact ⟨jump :: after, hafter, (List.nodup_append.mp hnodup).2.1, fun _ => by simp⟩
      · exact ⟨jump :: path, .cons hjump hpath, List.nodup_cons.mpr ⟨hmem, hnodup⟩, fun _ => by simp⟩

/-- **From a ring no hops come to an end.** -/
theorem exists_jumpAfter_of_ring {target final : Target} {jumps ring : List Nat} (hne : ring ≠ [])
    (hring : Hops body target ring target) (h : Hops body target jumps final) :
    ∃ next onward, jumpAfter? body final = some (next, onward) := by
  induction h generalizing ring with
  | nil =>
      cases hring with
      | nil => exact absurd rfl hne
      | cons hjump _ => exact ⟨_, _, hjump⟩
  | cons hjump _ ih =>
      cases hring with
      | nil => exact absurd rfl hne
      | cons hjump' hrest =>
          rw [hjump] at hjump'
          cases hjump'
          exact ih (by simp) (hrest.append (.cons hjump (.nil _)))

end Chains

section Fences

variable {stops : Instruction → Bool} {body : List Op}

/-- Behind what stops comes a marker, if anything, or a return that does not stop itself. -/
def Fenced (stops : Instruction → Bool) (body : List Op) : Prop :=
  ∀ (i : Nat) x next, (codeOf body)[i]? = some x → stops x = true →
    nextLive body (i + 1) = some next → ∃ y, (codeOf body)[next]? = some y ∧
      (y.isMarker = true ∨ y.isReturn = true ∧ stops y = false)

/-- Where no dead code is taken out, what stops is fenced. -/
theorem fenced_of_stripAfter (hself : stripAfter stops false body = body)
    (hstops : ∀ x : Instruction, stops x = true → x.isRemoved = false ∧ x.isMarker = false) :
    Fenced stops body := by
  intro i x next hx hstop hnext
  obtain ⟨op, hop, rfl⟩ := exists_of_codeOf_getElem? hx
  obtain ⟨opn, hopn, hlive⟩ := exists_of_nextLive hnext
  have hdead : deadBefore stops false body (i + 1) = true := by
    rw [deadBefore_succ stops false hop]
    simp [deadAfter, hstops _ hstop, hstop]
  have hdead' : deadBefore stops false body next = true := by
    refine deadBefore_of_plain (nextLive_eq_some hnext).1 hdead fun k hlow hhigh => ?_
    exact ⟨_, removed_of_nextLive hnext hlow hhigh, rfl, rfl⟩
  have hkept := stripAfter_getElem? stops body false next
  rw [hself, hopn, Option.map_some, hdead'] at hkept
  have hsurvives : survives stops true opn.instruction = true := by
    by_contra hgone
    rw [if_neg hgone] at hkept
    rw [Option.some.inj hkept] at hlive
    cases hlive
  exact ⟨_, codeOf_getElem? hopn, by simpa [survives, hlive] using hsurvives⟩

/-- Only ops that were taken out stand between what stops and an index, so that what is at the index
is dead unless it is a marker. -/
def Trailing (stops : Instruction → Bool) (body : List Op) (n : Nat) : Prop :=
  ∃ (i : Nat) (x : Instruction), i < n ∧ (codeOf body)[i]? = some x ∧ stops x = true ∧
    ∀ k, i < k → k < n → (codeOf body)[k]? = some .removed

/-- **What trails and was not taken out is the fence.** -/
theorem Fenced.of_trailing (h : Fenced stops body) {n : Nat} {op : Op} (hop : body[n]? = some op)
    (hlive : op.instruction.isRemoved = false) (htrails : Trailing stops body n) :
    op.instruction.isMarker = true ∨ op.instruction.isReturn = true ∧ stops op.instruction = false := by
  obtain ⟨i, x, hlt, hx, hstop, hgone⟩ := htrails
  obtain ⟨next, hle, hnext⟩ := exists_nextLive (show i + 1 ≤ n by omega) hop hlive
  obtain ⟨opn, hopn, hliven⟩ := exists_of_nextLive hnext
  have hsame : next = n := by
    rcases Nat.eq_or_lt_of_le hle with heq | hbetween
    · exact heq
    · have hremoved := hgone next (nextLive_eq_some hnext).1 hbetween
      rw [codeOf_getElem? hopn] at hremoved
      rw [Option.some.inj hremoved] at hliven
      cases hliven
  subst hsame
  obtain ⟨y, hy, hfence⟩ := h i x next hx hstop hnext
  rw [codeOf_getElem? hop] at hy
  cases hy
  exact hfence

/-- **Where what stops is fenced, dead code is what was taken out.** -/
theorem Fenced.trailing (h : Fenced stops body) {n : Nat} (hle : n ≤ body.length)
    (hdead : deadBefore stops false body n = true) : Trailing stops body n := by
  induction n with
  | zero =>
      rw [deadBefore] at hdead
      cases hdead
  | succ n ih =>
      obtain ⟨op, hop⟩ : ∃ op, body[n]? = some op := ⟨_, List.getElem?_eq_getElem hle⟩
      rw [deadBefore_succ stops false hop] at hdead
      cases hremoved : op.instruction.isRemoved with
      | true =>
          rw [deadAfter, hremoved, if_pos rfl] at hdead
          obtain ⟨i, x, hlt, hx, hstop, hgone⟩ := ih (by omega) hdead
          refine ⟨i, x, by omega, hx, hstop, fun k hik hkn => ?_⟩
          rcases Nat.lt_or_ge k n with hbetween | hge
          · exact hgone k hik hbetween
          · obtain rfl : k = n := by omega
            rw [codeOf_getElem? hop, eq_removed_of_isRemoved hremoved]
      | false =>
          cases hbefore : deadBefore stops false body n with
          | false =>
              rw [hbefore] at hdead
              exact ⟨n, _, Nat.lt_succ_self n, codeOf_getElem? hop, stops_of_deadAfter hdead,
                by omega⟩
          | true =>
              -- a dead op that is left would be the fence, and end the dead code
              rw [hbefore] at hdead
              rcases h.of_trailing hop hremoved (ih (by omega) hbefore) with
                hmarker | ⟨hreturn, hstops⟩
              · simp [deadAfter, hremoved, hmarker] at hdead
              · simp [deadAfter, hremoved, hreturn, hstops] at hdead

/-- **Where what stops is fenced, no dead code is taken out.**  Fences are what a normal form asks
to stand behind jumps and returns, and dead code ends at them. -/
theorem Fenced.stripAfter (h : Fenced stops body) : stripAfter stops false body = body := by
  apply List.ext_getElem?
  intro n
  rw [stripAfter_getElem?]
  cases hop : body[n]? with
  | none => rfl
  | some op =>
      rw [Option.map_some]
      have hlt := (List.getElem?_eq_some_iff.mp hop).1
      cases hremoved : op.instruction.isRemoved with
      | true => rw [if_pos (by simp [survives, hremoved])]
      | false =>
          cases hdead : deadBefore stops false body n with
          | false => rfl
          | true =>
              rcases h.of_trailing hop hremoved (h.trailing (Nat.le_of_lt hlt) hdead) with
                hmarker | ⟨hreturn, hstops⟩
              · rw [if_pos (by simp [survives, hmarker])]
              · rw [if_pos (by simp [survives, hreturn, hstops])]

end Fences

section Settled

variable {body : List Op}

/-- Where no runs are merged, a marker continues no run. -/
theorem runBefore_of_merged (hmerged : mergeMarkers none 1 body.tail = body.tail) {n : Nat}
    {name : String} (hmarker : (codeOf body)[n + 1]? = some (.marker name)) :
    runBefore none 1 body.tail n = none := by
  obtain ⟨op, hop, hinstr⟩ := exists_of_codeOf_getElem? hmarker
  rw [← List.getElem?_tail] at hop
  have hkept := mergeMarkers_getElem? body.tail none 1 n
  rw [hmerged, hop, Option.map_some] at hkept
  by_contra hrun
  rw [hinstr, Option.isSome_iff_ne_none.mpr hrun] at hkept
  rw [Option.some.inj hkept] at hinstr
  cases hinstr

/-- **What a round leaves alone is in normal form.**  Each field is read off the step that would
have changed the body otherwise. -/
theorem Settled.normalForm (h : Settled body) : NormalForm body := by
  have hresolved : Resolved body := fun target haims => by
    obtain ⟨landing, hlanding, heq⟩ := h.pointed target haims
    obtain ⟨_, _, _, hmarks⟩ := landing_spec hlanding
    rw [heq]
    exact ⟨landing.index, rfl, hmarks⟩
  have hreturns : Fenced Instruction.isReturn body := by
    refine fenced_of_stripAfter h.returns fun x hreturn => ?_
    cases x with
    | ret => exact ⟨rfl, rfl⟩
    | _ => cases hreturn
  have hjumps : Fenced Instruction.isJump body := by
    refine fenced_of_stripAfter h.jumps fun x hjump => ?_
    cases x with
    | jump => exact ⟨rfl, rfl⟩
    | _ => cases hjump
  refine ⟨hresolved, h.used, ?_, ?_, ?_, h.apart, ?_⟩
  · intro index name next name' hmarks hnext hmarker
    obtain ⟨hle, _⟩ := nextLive_eq_some hnext
    obtain ⟨n, rfl⟩ : ∃ n, next = n + 1 := ⟨next - 1, by omega⟩
    have hlt := (List.getElem?_eq_some_iff.mp hmarker).1
    rw [length_codeOf] at hlt
    have hrun := runBefore_spec (show n < body.length by omega)
    rw [runBefore_of_merged h.merged hmarker] at hrun
    obtain ⟨l, op, hlow, hhigh, hop, hsolid⟩ := hrun index name hmarks (by omega)
    have hgone := removed_of_nextLive hnext (show index + 1 ≤ l by omega) hhigh
    rw [codeOf_getElem? hop] at hgone
    rw [Option.some.inj hgone] at hsolid
    cases hsolid
  · intro i value next hret hnext
    obtain ⟨y, hy, hmarker | ⟨hreturn, hstops⟩⟩ := hreturns i _ next hret rfl hnext
    · cases y with
      | marker name => exact ⟨name, hy⟩
      | _ => cases hmarker
    · rw [hreturn] at hstops
      cases hstops
  · intro i target next hjump hnext
    obtain ⟨y, hy, hmarker | ⟨hreturn, _⟩⟩ := hjumps i _ next hjump rfl hnext
    · cases y with
      | marker name => exact .inl ⟨name, hy⟩
      | _ => cases hmarker
    · cases y with
      | ret value => exact .inr ⟨value, hy⟩
      | _ => cases hreturn
  · intro target marker next onward haims hmarker hnext hjump
    have hafter := jumpAfter?_iff.mpr ⟨marker, hmarker, hnext, hjump⟩
    rcases h.threaded target haims with hnone | ⟨jumps, hne, _, hring⟩
    · rw [hafter] at hnone
      cases hnone
    · cases hring with
      | nil => exact absurd rfl hne
      | cons hfirst hrest =>
          rw [hafter] at hfirst
          cases hfirst
          exact hrest.chained hjump hafter

end Settled

namespace NormalForm

variable {body : List Op}

/-- **A jump that stands behind a target leads back to it.** -/
theorem exists_ring (h : NormalForm body) {target onward : Target} {next : Nat}
    (haims : Aims body target) (hjump : jumpAfter? body target = some (next, onward)) :
    ∃ ring, Hops body onward ring target := by
  obtain ⟨marker, hmarker, hnext, honward⟩ := jumpAfter?_iff.mp hjump
  obtain ⟨ring, last, _, hring, hlast⟩ :=
    exists_hops_of_chained (h.threaded target marker next onward haims hmarker hnext honward) honward
  have hmid : Aims body onward := Hops.aims (.cons hjump (.nil onward)) haims
  obtain rfl : last = target := jumpAfter?_inj h.resolved (hring.aims hmid) haims hlast hjump
  exact ⟨ring, hring⟩

/-- **Chains of jumps are collapsed to their ends.**  Jumps that are followed from a target to one
behind which no jump stands are none. -/
theorem collapsed (h : NormalForm body) {target final : Target} {jumps : List Nat}
    (haims : Aims body target) (hhops : Hops body target jumps final)
    (hend : jumpAfter? body final = none) : jumps = [] := by
  cases hhops with
  | nil => rfl
  | cons hjump hrest =>
      obtain ⟨ring, hring⟩ := h.exists_ring haims hjump
      obtain ⟨_, _, hsome⟩ :=
        exists_jumpAfter_of_ring (List.cons_ne_nil _ ring) (.cons hjump hring) (.cons hjump hrest)
      rw [hend] at hsome
      cases hsome

/-- Targets are stable. -/
theorem stable (h : NormalForm body) {target : Target} (haims : Aims body target) :
    Stable body target := by
  cases hjump : jumpAfter? body target with
  | none => exact .inl hjump
  | some found =>
      obtain ⟨ring, hring⟩ := h.exists_ring haims hjump
      obtain ⟨path, hpath, hnodup, hne⟩ :=
        Hops.exists_nodup h.resolved (.cons hjump hring) haims
      exact .inr ⟨path, hne (by simp), hnodup, hpath⟩

/-- A marker continues no run. -/
theorem runBefore_eq_none (h : NormalForm body) {n : Nat} {op : Op} (hop : body[n + 1]? = some op)
    (hmarker : op.instruction.isMarker = true) : runBefore none 1 body.tail n = none := by
  have hlt := (List.getElem?_eq_some_iff.mp hop).1
  have hrun := runBefore_spec (show n < body.length by omega)
  cases hbefore : runBefore none 1 body.tail n with
  | none => rfl
  | some landing =>
      rw [hbefore] at hrun
      obtain ⟨hmarks, hbelow, hheads⟩ := hrun
      have hlive : op.instruction.isRemoved = false := by
        cases hinstr : op.instruction with
        | removed =>
            rw [hinstr] at hmarker
            cases hmarker
        | _ => rfl
      obtain ⟨next, hle, hnext⟩ := exists_nextLive (show landing.index + 1 ≤ n + 1 by omega) hop hlive
      obtain ⟨opn, hopn, hliven⟩ := exists_of_nextLive hnext
      have hmarkern : opn.instruction.isMarker = true := by
        rcases Nat.eq_or_lt_of_le hle with rfl | hbetween
        · rw [hop] at hopn
          cases hopn
          exact hmarker
        · have hloose := hheads.loose next opn (nextLive_eq_some hnext).1 hbetween hopn
          rwa [Instruction.isLoose, hliven, Bool.false_or] at hloose
      cases hinstr : opn.instruction with
      | marker name =>
          exact absurd ((codeOf_getElem? hopn).trans (congrArg some hinstr))
            (h.lone landing.index landing.name next name hmarks hnext)
      | _ =>
          rw [hinstr] at hmarkern
          cases hmarkern

/-- No markers are merged. -/
theorem merged (h : NormalForm body) : mergeMarkers none 1 body.tail = body.tail := by
  apply List.ext_getElem?
  intro n
  rw [mergeMarkers_getElem?]
  cases hop : body.tail[n]? with
  | none => rfl
  | some op =>
      rw [Option.map_some]
      rw [List.getElem?_tail] at hop
      cases hmarker : op.instruction.isMarker with
      | false => rfl
      | true =>
          rw [h.runBefore_eq_none hop hmarker]
          rfl

/-- With different names, looking up a name leads where the jumps go already. -/
theorem pointed (h : NormalForm body) (hdistinct : Distinct body) {target : Target}
    (haims : Aims body target) : ∃ landing, landingOf? target.marker none 1 body.tail = some landing ∧
      target = { marker := landing.name, index := some landing.index } := by
  obtain ⟨index, hindex, hmarks⟩ := h.resolved target haims
  obtain ⟨hpos, op, hop, hinstr⟩ := hmarks
  obtain ⟨n, rfl⟩ : ∃ n, index = n + 1 := ⟨index - 1, by omega⟩
  cases hlanding : landingOf? target.marker none 1 body.tail with
  | none =>
      rw [← List.getElem?_tail] at hop
      exact absurd hlanding (landingOf?_ne_none hop hinstr)
  | some landing =>
      obtain ⟨_, _, _, hhead⟩ := landing_spec hlanding
      have hname := landing_name h.merged hlanding
      have hsame : landing.index = n + 1 :=
        hdistinct _ _ _ (hname ▸ hhead) ⟨hpos, op, hop, hinstr⟩
      refine ⟨landing, rfl, ?_⟩
      obtain ⟨name, place⟩ := target
      cases hindex
      rw [hname, hsame]

/-- **With different names of markers, a round leaves alone what is in normal form.**  So for
lowered code to be in normal form is the same as to be settled. -/
theorem settled (h : NormalForm body) (hdistinct : Distinct body) : Settled body := by
  have hreturns : Fenced Instruction.isReturn body := by
    intro i x next hx hreturn hnext
    cases x with
    | ret value =>
        obtain ⟨name, hname⟩ := h.behind_ret i value next hx hnext
        exact ⟨_, hname, .inl rfl⟩
    | _ => cases hreturn
  have hjumps : Fenced Instruction.isJump body := by
    intro i x next hx hjump hnext
    cases x with
    | jump target =>
        rcases h.behind_jump i target next hx hnext with ⟨name, hname⟩ | ⟨value, hvalue⟩
        · exact ⟨_, hname, .inl rfl⟩
        · exact ⟨_, hvalue, .inr ⟨rfl, rfl⟩⟩
    | _ => cases hjump
  exact ⟨h.merged, fun _ => h.pointed hdistinct, hreturns.stripAfter, hjumps.stripAfter,
    fun _ => h.stable, h.used, h.apart⟩

end NormalForm

/-- **What simplification gives is in normal form.**  Take any function that can be simplified,
whatever its instructions and the names of its markers.  In the simplified function every jump and
branch knows the index of a marker of its name, and every marker behind the entry is gone to; no
marker follows another; what follows a return is a marker, and what follows a jump is a marker or a
return; no jump goes to the next instruction; and behind the marker that a jump or branch goes to
there stands no jump, unless that jump comes back to itself by way of others.  So every chain of
jumps that comes to an end has been collapsed to that end.  If moreover the markers of a function
have different names, its normal form is all that simplification asks for. -/
theorem simplify_normalForm (f : Function) :
    (∀ g, f.simplify = .ok g → NormalForm g.body ∧
      ∀ target jumps final, Aims g.body target → Hops g.body target jumps final →
        jumpAfter? g.body final = none → jumps = []) ∧
    (Closed f.body → Distinct f.body → NormalForm f.body →
      f.simplify = .ok { f with body := withLastUses f.body }) := by
  refine ⟨fun g hg => ?_, fun hclosed hdistinct h => ?_⟩
  · obtain ⟨body, hbody, _, rfl⟩ := simplify_eq_ok hg
    obtain ⟨n, outcome, hle, hrounds⟩ := exists_rounds f.label f.body
    have hfew := card_liveIndices_le f.body
    have hsettle := hrounds.settle_eq (show n ≤ roundLimit f.body by unfold roundLimit; omega)
    have hnormal := ((hrounds.settled (hsettle.symm.trans hbody)).of_codeOf_eq
      (codeOf_withLastUses body)).normalForm
    exact ⟨hnormal, fun _ _ _ haims hhops hend => hnormal.collapsed haims hhops hend⟩
  · have hdone := (Rounds.done ((h.settled hdistinct).round f.label)).settle_eq
      (show 1 ≤ roundLimit f.body by unfold roundLimit; omega)
    exact simplify_of_settle hdone hclosed

/-- What is left of a branch into a ring of jumps: the ring is a single jump to itself. -/
def circled : List Instruction :=
  [.marker "f", .nop, .branch true 1 { marker := "forth", index := some 7 }, .ret none,
    .removed, .removed, .removed, .marker "forth", .removed, .removed,
    .jump { marker := "forth", index := some 7 }]

/-- A ring of jumps is simplified to a jump to itself, and that is in normal form and stays. -/
theorem simplify_normalForm_circling : ∃ g, circling.simplify = .ok g ∧ codeOf g.body = circled ∧
    Closed g.body ∧ Distinct g.body ∧ NormalForm g.body ∧
    g.simplify = .ok { g with body := withLastUses g.body } := by
  have hcode : circling.simplify.toOption.map (codeOf ·.body) = some circled := by decide +kernel
  obtain ⟨g, hg, hcode⟩ := Option.map_eq_some_iff.mp hcode
  have hsimple : circling.simplify = .ok g := toOption_eq_some.mp hg
  have hsame : codeOf g.body = codeOf (opsAt none circled) := by
    rw [hcode, codeOf_opsAt]
  have hclosed : Closed g.body :=
    .of_codeOf_eq (show Closed (opsAt none circled) by decide) hsame
  have hdistinct : Distinct g.body :=
    .of_codeOf_eq (show Distinct (opsAt none circled) by decide) hsame
  have hnormal := ((simplify_normalForm circling).1 g hsimple).1
  exact ⟨g, hsimple, hcode, hclosed, hdistinct, hnormal,
    (simplify_normalForm g).2 hclosed hdistinct hnormal⟩

end Stackless.Flat
