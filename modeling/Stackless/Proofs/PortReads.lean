import Stackless.Proofs.Frames
import Stackless.Proofs.SoleUse

/-!
# Ports that are read straight into variables

An assignment of a port to a word variable becomes a read of the port into the
variable.  What this does to a body is said exactly, for bodies in which operands stand
before their users and no value is used twice (`Linear`):

* `ReadsPort` — an assignment of this kind, with its variable and its port read;
* `PortsPassed` — the assignment and the variable are taken out, the port read has the
  offset of the variable, and everything else is as it was.

The walk goes from first to last (`portsPassed_of_passPorts`).  It looks at operands that
it has not touched yet, since no other assignment uses them.
-/

namespace Stackless

/-- **What a step over a number keeps, steps over the first numbers keep.** -/
theorem foldlM_range_induction {ε σ : Type} {step : σ → Nat → Except ε σ} {P : Nat → σ → Prop}
    {start : σ} (hzero : P 0 start)
    (hstep : ∀ n state next, P n state → step state n = .ok next → P (n + 1) next) {n : Nat}
    {out : σ} (h : (List.range n).foldlM step start = .ok out) : P n out := by
  induction n generalizing out with
  | zero =>
      cases h
      exact hzero
  | succ n ih =>
      rw [List.range_succ, List.foldlM_append] at h
      obtain ⟨state, hstate, h⟩ := bind_eq_ok.mp h
      rw [List.foldlM_cons] at h
      obtain ⟨next, hnext, h⟩ := bind_eq_ok.mp h
      cases h
      exact hstep n state out (ih hstate) hnext

namespace Storage

open Flat (Op Instruction Offset Var codeOf)

/-- The offset of a variable, if it has one. -/
def Scope.find? (scope : Scope) : Var → Option Offset
  | .localVar name => scope.locals.find? name
  | .globalVar label => (scope.globals.find? label).map .absolute

/-- A global is found under its label. -/
theorem Scope.global_eq_ok {scope : Scope} {body : List Op} {index : Nat} {var : Var}
    {address : Nat} : scope.global body index var = .ok address ↔
      ∃ label, var = .globalVar label ∧ scope.globals.find? label = some address := by
  cases var with
  | localVar name => simp [Scope.global]
  | globalVar label =>
      unfold Scope.global
      cases hfind : scope.globals.find? label with
      | none => simp [hfind]
      | some address' => simp [hfind]

/-- The offset of a variable is found or not, whoever asks for it. -/
theorem Scope.var_eq_ok {scope : Scope} {body : List Op} {index : Nat} {var : Var}
    {offset : Offset} : scope.var body index var = .ok offset ↔ scope.find? var = some offset := by
  cases var with
  | localVar name =>
      unfold Scope.var Scope.find?
      cases hfind : scope.locals.find? name with
      | none => simp [hfind]
      | some offset' => simp [hfind]
  | globalVar label =>
      unfold Scope.var Scope.find?
      rw [bind_eq_ok, Option.map_eq_some_iff]
      constructor
      · rintro ⟨address, haddress, h⟩
        cases h
        obtain ⟨label', heq, hfind⟩ := Scope.global_eq_ok.mp haddress
        cases heq
        exact ⟨address, hfind, rfl⟩
      · rintro ⟨address, hfind, rfl⟩
        exact ⟨address, Scope.global_eq_ok.mpr ⟨label, rfl, hfind⟩, rfl⟩

/-- A body in which operands stand before their users, and no value is used twice. -/
structure Linear (body : List Op) : Prop where
  lt : ∀ (i : Nat) (x : Instruction), (codeOf body)[i]? = some x → ∀ r ∈ x.operands, r < i
  once : ∀ (i j : Nat) (x y : Instruction) (r : Nat), (codeOf body)[i]? = some x → (codeOf body)[j]? = some y → r ∈ x.operands →
    r ∈ y.operands → i = j
  nodup : ∀ x ∈ codeOf body, x.operands.Nodup

/-- The assignment at `u` puts the port read at `v` into the variable at `t`. -/
structure ReadsPort (body : List Op) (u t v : Nat) (var : Var) : Prop where
  assign : (codeOf body)[u]? = some (.assign none .word t v)
  target : (codeOf body)[t]? = some (.register var)
  value : ∃ port, (codeOf body)[v]? = some (.portIn port)

/-- What is left of a body when the assignments before an index have been looked at. -/
structure PortsPassed (scope : Scope) (before : List Op) (n : Nat) (body : List Op)
    (passed : List Nat) : Prop where
  same : ∀ i, (∀ u t v var, u < n → ReadsPort before u t v var → i ≠ u ∧ i ≠ t ∧ i ≠ v) →
    body[i]? = before[i]?
  gone : ∀ u t v var, u < n → ReadsPort before u t v var →
    body[u]? = before[u]?.map Op.remove ∧ body[t]? = before[t]?.map Op.remove ∧
    ∃ offset, scope.find? var = some offset ∧
      body[v]? = before[v]?.map fun op => { op with offset }
  passed_iff : ∀ i, i ∈ passed ↔ ∃ u t var, u < n ∧ ReadsPort before u t i var

namespace ReadsPort

variable {body : List Op} {u t v u' t' v' : Nat} {var var' : Var}

/-- The three ops are different, and the assignment is the last of them. -/
theorem order (h : ReadsPort body u t v var) (hlinear : Linear body) :
    t < u ∧ v < u ∧ t ≠ v := by
  have ht := hlinear.lt u _ h.assign t (by simp [Instruction.operands])
  have hv := hlinear.lt u _ h.assign v (by simp [Instruction.operands])
  have hnodup := hlinear.nodup _ (List.mem_of_getElem? h.assign)
  refine ⟨ht, hv, fun heq => ?_⟩
  rw [heq] at hnodup
  exact (List.nodup_cons.mp hnodup).1 (List.mem_singleton_self v)

/-- Two different assignments have nothing in common. -/
theorem apart (h : ReadsPort body u t v var) (h' : ReadsPort body u' t' v' var')
    (hlinear : Linear body) (hne : u ≠ u') :
    u ≠ t' ∧ u ≠ v' ∧ t ≠ t' ∧ t ≠ v' ∧ v ≠ t' ∧ v ≠ v' := by
  have hshare : ∀ r, r ∈ [t, v] → r ∈ [t', v'] → u = u' := fun r hr hr' =>
    hlinear.once u u' _ _ r h.assign h'.assign hr hr'
  have hu : ∀ r, r ∈ [t', v'] → u ≠ r := by
    intro r hr heq
    have hassign := h.assign
    rw [heq] at hassign
    obtain ⟨port, hport⟩ := h'.value
    simp only [List.mem_cons, List.not_mem_nil, or_false] at hr
    rcases hr with rfl | rfl
    · rw [h'.target] at hassign
      cases hassign
    · rw [hport] at hassign
      cases hassign
  refine ⟨hu t' (by simp), hu v' (by simp), ?_, ?_, ?_, ?_⟩
  · exact fun heq => hne (hshare t (by simp) (by simp [heq]))
  · exact fun heq => hne (hshare t (by simp) (by simp [heq]))
  · exact fun heq => hne (hshare v (by simp) (by simp [heq]))
  · exact fun heq => hne (hshare v (by simp) (by simp [heq]))

/-- An assignment says which variable and which port it has. -/
theorem unique (h : ReadsPort body u t v var) (h' : ReadsPort body u t' v' var') :
    t = t' ∧ v = v' ∧ var = var' := by
  have hassign := h.assign
  rw [h'.assign] at hassign
  cases hassign
  have htarget := h.target
  rw [h'.target] at htarget
  cases htarget
  exact ⟨rfl, rfl, rfl⟩

end ReadsPort

namespace PortsPassed

variable {scope : Scope} {before body : List Op} {n : Nat} {passed : List Nat}

theorem start (scope : Scope) (before : List Op) : PortsPassed scope before 0 before [] where
  same := fun _ _ => rfl
  gone := fun u t v var hu => absurd hu (Nat.not_lt_zero u)
  passed_iff := by
    intro i
    simp

/-- What stands at an index that is not looked at yet is as it was. -/
theorem ahead (h : PortsPassed scope before n body passed) (hlinear : Linear before) {i : Nat}
    (hi : n ≤ i) : body[i]? = before[i]? := by
  apply h.same
  intro u t v var hu hreads
  have := hreads.order hlinear
  omega

/-- An instruction that is there was there before. -/
theorem of_live (h : PortsPassed scope before n body passed) {i : Nat} {x : Instruction}
    (hx : (codeOf body)[i]? = some x) (hlive : x ≠ .removed) : (codeOf before)[i]? = some x := by
  have hat : (codeOf body)[i]? = body[i]?.map (·.instruction) := List.getElem?_map
  have hat' : (codeOf before)[i]? = before[i]?.map (·.instruction) := List.getElem?_map
  by_cases hmine : ∀ u t v var, u < n → ReadsPort before u t v var → i ≠ u ∧ i ≠ t ∧ i ≠ v
  · rw [hat', ← h.same i hmine, ← hat]
    exact hx
  · push Not at hmine
    obtain ⟨u, t, v, var, hu, hreads, himp⟩ := hmine
    obtain ⟨hgone, hgone', offset, _, hmoved⟩ := h.gone u t v var hu hreads
    have hremoved : ∀ k, body[k]? = before[k]?.map Op.remove → i ≠ k := by
      intro k hk heq
      subst heq
      rw [hat, hk, Option.map_map] at hx
      obtain ⟨op, _, rfl⟩ := Option.map_eq_some_iff.mp hx
      exact hlive rfl
    have hv := himp (hremoved u hgone) (hremoved t hgone')
    subst hv
    rw [hat, hmoved, Option.map_map] at hx
    rw [hat']
    exact hx

/-- The ops of an assignment that is looked at next are as they were. -/
theorem mine (h : PortsPassed scope before n body passed) (hlinear : Linear before) {t v : Nat}
    {var : Var} (hreads : ReadsPort before n t v var) (i : Nat) (hi : i = n ∨ i = t ∨ i = v) :
    body[i]? = before[i]? := by
  apply h.same
  intro u t' v' var' hu hreads'
  have horder := hreads'.order hlinear
  obtain ⟨_, _, h1, h2, h3, h4⟩ := hreads.apart hreads' hlinear (by omega)
  obtain ⟨h5, h6, _⟩ := hreads'.apart hreads hlinear (by omega)
  omega

/-- An assignment that reads no port is passed over. -/
theorem skip (h : PortsPassed scope before n body passed)
    (hnone : ∀ t v var, ¬ReadsPort before n t v var) : PortsPassed scope before (n + 1) body passed := by
  have hlt : ∀ {u t v var}, u < n + 1 → ReadsPort before u t v var → u < n := by
    intro u t v var hu hreads
    rcases Nat.lt_succ_iff_lt_or_eq.mp hu with hu | rfl
    · exact hu
    · exact absurd hreads (hnone t v var)
  refine ⟨fun i hi => h.same i fun u t v var hu => hi u t v var (Nat.lt_succ_of_lt hu), ?_, ?_⟩
  · exact fun u t v var hu hreads => h.gone u t v var (hlt hu hreads) hreads
  · intro i
    rw [h.passed_iff]
    constructor
    · rintro ⟨u, t, var, hu, hreads⟩
      exact ⟨u, t, var, Nat.lt_succ_of_lt hu, hreads⟩
    · rintro ⟨u, t, var, hu, hreads⟩
      exact ⟨u, t, var, hlt hu hreads, hreads⟩

/-- **An assignment that reads a port.** -/
theorem pass (h : PortsPassed scope before n body passed) (hlinear : Linear before) {t v : Nat}
    {var : Var} (hreads : ReadsPort before n t v var) {offset : Offset}
    (hoffset : scope.find? var = some offset) :
    PortsPassed scope before (n + 1)
      (((body.modify v fun op => { op with offset }).modify t Op.remove).modify n Op.remove)
      (passed ++ [v]) := by
  obtain ⟨htn, hvn, htv⟩ := hreads.order hlinear
  have hmine := h.mine hlinear hreads
  have hout : ∀ i, (((body.modify v fun op => { op with offset }).modify t Op.remove).modify n
      Op.remove)[i]? = if i = n ∨ i = t then before[i]?.map Op.remove
        else if i = v then before[i]?.map fun op => { op with offset } else body[i]? := by
    intro i
    rw [Flat.getElem?_modify_eq, Flat.getElem?_modify_eq, Flat.getElem?_modify_eq]
    by_cases hn : n = i
    · subst hn
      rw [if_pos rfl, if_neg (by omega), if_neg (by omega), if_pos (.inl rfl), hmine n (.inl rfl)]
    · by_cases ht : t = i
      · subst ht
        rw [if_neg hn, if_pos rfl, if_neg (by omega), if_pos (.inr rfl), hmine t (.inr (.inl rfl))]
      · by_cases hv : v = i
        · subst hv
          rw [if_neg hn, if_neg ht, if_pos rfl, if_neg (by omega), if_pos rfl,
            hmine v (.inr (.inr rfl))]
        · rw [if_neg hn, if_neg ht, if_neg hv, if_neg (by omega), if_neg (by omega)]
  refine ⟨fun i hi => ?_, fun u t' v' var' hu hreads' => ?_, fun i => ?_⟩
  · obtain ⟨h1, h2, h3⟩ := hi n t v var (Nat.lt_succ_self n) hreads
    rw [hout, if_neg (by omega), if_neg h3]
    exact h.same i fun u t' v' var' hu => hi u t' v' var' (Nat.lt_succ_of_lt hu)
  · rcases Nat.lt_succ_iff_lt_or_eq.mp hu with hu | rfl
    · obtain ⟨_, _, h1, h2, h3, h4⟩ := hreads.apart hreads' hlinear (by omega)
      have horder := hreads'.order hlinear
      obtain ⟨h5, h6, offset', hoffset', h7⟩ := h.gone u t' v' var' hu hreads'
      obtain ⟨h8, h9, _⟩ := hreads'.apart hreads hlinear (by omega)
      refine ⟨?_, ?_, offset', hoffset', ?_⟩
      · rw [hout, if_neg (by omega), if_neg (by omega), h5]
      · rw [hout, if_neg (by omega), if_neg (by omega), h6]
      · rw [hout, if_neg (by omega), if_neg (by omega), h7]
    · obtain ⟨rfl, rfl, rfl⟩ := hreads.unique hreads'
      refine ⟨?_, ?_, offset, hoffset, ?_⟩
      · rw [hout, if_pos (.inl rfl)]
      · rw [hout, if_pos (.inr rfl)]
      · rw [hout, if_neg (by omega), if_pos rfl]
  · rw [List.mem_append, List.mem_singleton, h.passed_iff]
    constructor
    · rintro (⟨u, t', var', hu, hreads'⟩ | rfl)
      · exact ⟨u, t', var', Nat.lt_succ_of_lt hu, hreads'⟩
      · exact ⟨n, t, var, Nat.lt_succ_self n, hreads⟩
    · rintro ⟨u, t', var', hu, hreads'⟩
      rcases Nat.lt_succ_iff_lt_or_eq.mp hu with hu | rfl
      · exact .inl ⟨u, t', var', hu, hreads'⟩
      · exact .inr (hreads.unique hreads').2.1.symm

/-- Looking at one more index. -/
theorem step (h : PortsPassed scope before n body passed) (hlinear : Linear before)
    {out : List Op} {passed' : List Nat} (heq : passPort scope body passed n = .ok (out, passed')) :
    PortsPassed scope before (n + 1) out passed' := by
  obtain ⟨instruction, hinstruction, heq⟩ := bind_eq_ok.mp heq
  obtain ⟨op, hop, rfl⟩ := instructionAt_eq_ok hinstruction
  rw [h.ahead hlinear (Nat.le_refl n)] at hop
  have hcode := Flat.codeOf_getElem? hop
  split at heq
  · rename_i target value hassign
    rw [hassign] at hcode
    obtain ⟨place, hplace, heq⟩ := bind_eq_ok.mp heq
    obtain ⟨source, hsource, heq⟩ := bind_eq_ok.mp heq
    obtain ⟨opt, hopt, rfl⟩ := instructionAt_eq_ok hplace
    obtain ⟨opv, hopv, rfl⟩ := instructionAt_eq_ok hsource
    have hcodet := Flat.codeOf_getElem? hopt
    have hcodev := Flat.codeOf_getElem? hopv
    split at heq
    · rename_i var port ht hv
      obtain ⟨offset, hoffset, heq⟩ := bind_eq_ok.mp heq
      cases heq
      rw [ht] at hcodet
      rw [hv] at hcodev
      have hreads : ReadsPort before n target value var :=
        ⟨hcode, h.of_live hcodet nofun, port, h.of_live hcodev nofun⟩
      exact h.pass hlinear hreads (Scope.var_eq_ok.mp hoffset)
    · rename_i hnot
      cases heq
      apply h.skip
      intro t v var hreads
      have hassign' := hreads.assign
      rw [hcode] at hassign'
      cases hassign'
      obtain ⟨port, hport⟩ := hreads.value
      rw [h.mine hlinear hreads target (.inr (.inl rfl))] at hopt
      rw [h.mine hlinear hreads value (.inr (.inr rfl))] at hopv
      have ht := hreads.target
      rw [Flat.codeOf_getElem? hopt] at ht
      rw [Flat.codeOf_getElem? hopv] at hport
      exact hnot var port (Option.some.inj ht) (Option.some.inj hport)
  · rename_i hnot
    cases heq
    apply h.skip
    intro t v var hreads
    rw [hreads.assign] at hcode
    exact hnot t v (Option.some.inj hcode).symm

end PortsPassed

/-- **What reading ports straight into variables leaves of a body.**  By induction on the number of
ops looked at; that no value is used twice keeps one such read out of the way of the next. -/
theorem portsPassed_of_passPorts {scope : Scope} {before body : List Op} {passed : List Nat}
    (hlinear : Linear before) (h : passPorts scope before = .ok (body, passed)) :
    PortsPassed scope before before.length body passed :=
  foldlM_range_induction (P := fun n state => PortsPassed scope before n state.1 state.2)
    (.start scope before) (fun _ _ _ hstate hstep => hstate.step hlinear hstep) h

end Storage

end Stackless
