import Stackless.Proofs.Stages

/-!
# A slot is held until its value is used last

A pool keeps one **life** for each slot that it may hand out again.  Three facts
carry everything below.

* `SlotPool.Sound` — no two lives have one slot, and no life has a pinned one;
* `SlotPool.claim_spec` — a claim takes no slot whose life is not over when the
  claim starts, and leaves that life alone;
* `Visit.slot_ne_of_life` — so no op of a visit claims a slot while a life in the
  pool holds it.

The visit of a function is followed op by op.  All that an op can do is in
`Visit.offset_cases`: it takes a slot from the pools (`Visit.ClaimsAt`), or leaves them
alone and gets no slot but that of a local (`Scope.Knows`).  `Visit.ops_spec` says what
slots the ops get.
-/

namespace Stackless

/-- The file that holds the value of an instruction that computes one. -/
def Flat.Instruction.resultFile? : Flat.Instruction → Option Flat.File
  | .int _ | .portIn _ | .element _ _ _ | .address _ _ => some .register
  | .bool _ | .compare _ _ _ _ => some .bit
  | .math _ width _ _ => some width.file
  | .call _ (some width) => some width.file
  | _ => none

namespace Storage

open Flat (Op Instruction Offset File Width Var)

/-- Putting a life in changes only the order. -/
theorem perm_enqueue (life : Life) : ∀ lives : List Life, (enqueue life lives).Perm (life :: lives)
  | [] => .refl _
  | first :: rest => by
    rw [enqueue]
    split
    · exact .refl _
    · exact ((perm_enqueue life rest).cons first).trans (.swap life first rest)

/-- The lives after one was put in are the old ones and the new one. -/
theorem mem_enqueue {life other : Life} {lives : List Life} :
    other ∈ enqueue life lives ↔ other = life ∨ other ∈ lives :=
  (perm_enqueue life lives).mem_iff.trans List.mem_cons

/-- Lives with one slot each stay so if a life with a new slot is put in. -/
theorem pairwise_enqueue {life : Life} {lives : List Life}
    (h : lives.Pairwise fun a b => a.slot ≠ b.slot)
    (hnew : ∀ other ∈ lives, other.slot ≠ life.slot) :
    (enqueue life lives).Pairwise fun a b => a.slot ≠ b.slot := by
  refine ((perm_enqueue life lives).pairwise_iff fun hne => hne.symm).mpr ?_
  exact List.pairwise_cons.mpr ⟨fun other hother => (hnew other hother).symm, h⟩

namespace SlotPool

/-- A pool in which `pins` slots are pinned: every life has a slot of its own, which
is not pinned. -/
structure Sound (pins : Nat) (p : SlotPool) : Prop where
  distinct : p.lives.Pairwise (fun a b => a.slot ≠ b.slot)
  range : ∀ life ∈ p.lives, pins ≤ life.slot ∧ life.slot < p.count
  pins_le : pins ≤ p.count

/-- A pool without lives has pinned all its slots. -/
theorem sound_of_lives_nil {p : SlotPool} (h : p.lives = []) : p.Sound p.count where
  distinct := by
    rw [h]
    exact List.Pairwise.nil
  range := by
    rw [h]
    intro life hlife
    cases hlife
  pins_le := Nat.le_refl _

theorem not_expired {reuse : Reuse} {expiry start : Nat} (h : start < expiry) :
    reuse.expired expiry start = false := by
  cases reuse with
  | strict => exact decide_eq_false (Nat.lt_asymm h)
  | inclusive => exact decide_eq_false (Nat.not_le_of_lt h)

/-- A life that is not over was not over before. -/
theorem not_expired_of_le {reuse : Reuse} {expiry start earlier : Nat}
    (h : reuse.expired expiry start = false) (hle : earlier ≤ start) :
    reuse.expired expiry earlier = false := by
  cases reuse with
  | strict =>
      have hnot : ¬expiry < start := of_decide_eq_false h
      exact decide_eq_false (by omega)
  | inclusive =>
      have hnot : ¬expiry ≤ start := of_decide_eq_false h
      exact decide_eq_false (by omega)

/-- What it means that a slot was taken from `start` to `last`. -/
structure Taken (pins : Nat) (p : SlotPool) (start last slot : Nat) (q : SlotPool) : Prop where
  sound : q.Sound pins
  life : ⟨last, slot⟩ ∈ q.lives
  pins_le : pins ≤ slot
  lt_count : slot < q.count
  count_le : p.count ≤ q.count
  reuse_eq : q.reuse = p.reuse
  /-- Lives that are not over are not touched, nor are their slots taken. -/
  later : ∀ life ∈ p.lives, p.reuse.expired life.expiry start = false →
    life.slot ≠ slot ∧ life ∈ q.lives

/-- **The two ways to serve a claim.**  Either the first life is over and its slot is used again, or
it is not and the slot is a new one. -/
theorem claim_cases (p : SlotPool) (start last : Nat) :
    (∃ first rest, p.lives = first :: rest ∧ p.reuse.expired first.expiry start = true ∧
      p.claim start last = (first.slot, { p with lives := enqueue ⟨last, first.slot⟩ rest })) ∨
    ((∀ first rest, p.lives = first :: rest → p.reuse.expired first.expiry start = false) ∧
      p.claim start last =
        (p.count, { p with count := p.count + 1, lives := enqueue ⟨last, p.count⟩ p.lives })) := by
  unfold claim expired?
  cases hlives : p.lives with
  | nil => exact .inr ⟨nofun, by simp only [pin, hlives]⟩
  | cons first rest =>
      cases hover : p.reuse.expired first.expiry start with
      | true => exact .inl ⟨first, rest, rfl, hover, by simp only [hover, if_true]⟩
      | false =>
          refine .inr ⟨fun first' rest' heq => ?_, by simp [hover, pin, hlives]⟩
          cases heq
          exact hover

/-- **A claim takes a slot that nobody needs any more.**  It comes from a life that is over, or it
is new; lives that go on are untouched, and pinned slots are never taken. -/
theorem claim_spec {pins : Nat} {p : SlotPool} (h : p.Sound pins) (start last : Nat) :
    Taken pins p start last (p.claim start last).1 (p.claim start last).2 := by
  rcases p.claim_cases start last with ⟨first, rest, hlives, hover, hclaim⟩ | ⟨_, hclaim⟩
  · -- the first life is over, and its slot is taken again
    have hpair := h.distinct
    rw [hlives] at hpair
    obtain ⟨hhead, htail⟩ := List.pairwise_cons.mp hpair
    have hmem : ∀ life ∈ rest, life ∈ p.lives := fun life hlife =>
      hlives ▸ List.mem_cons_of_mem _ hlife
    have hrange := h.range first (hlives ▸ List.mem_cons_self)
    rw [hclaim]
    refine ⟨⟨pairwise_enqueue htail fun other hother => (hhead other hother).symm, ?_, h.pins_le⟩,
      mem_enqueue.mpr (.inl rfl), hrange.1, hrange.2, Nat.le_refl _, rfl, ?_⟩
    · intro life hlife
      rcases mem_enqueue.mp hlife with rfl | hlife
      · exact hrange
      · exact h.range life (hmem life hlife)
    · intro life hlife hlater
      rw [hlives] at hlife
      rcases List.mem_cons.mp hlife with rfl | hlife
      · rw [hover] at hlater
        cases hlater
      · exact ⟨(hhead life hlife).symm, mem_enqueue.mpr (.inr hlife)⟩
  · have hnew : ∀ life ∈ p.lives, life.slot ≠ p.count := fun life hlife =>
      Nat.ne_of_lt (h.range life hlife).2
    rw [hclaim]
    refine ⟨⟨pairwise_enqueue h.distinct hnew, ?_, Nat.le_succ_of_le h.pins_le⟩,
      mem_enqueue.mpr (.inl rfl), h.pins_le, Nat.lt_succ_self _, Nat.le_succ _, rfl, ?_⟩
    · intro life hlife
      rcases mem_enqueue.mp hlife with rfl | hlife
      · exact ⟨h.pins_le, Nat.lt_succ_self _⟩
      · have := h.range life hlife
        exact ⟨this.1, Nat.lt_succ_of_lt this.2⟩
    · intro life hlife _
      exact ⟨hnew life hlife, mem_enqueue.mpr (.inr hlife)⟩

end SlotPool

namespace Pools

/-- The pool of a file. -/
def pool (p : Pools) : File → SlotPool
  | .register => p.registers
  | .bit => p.bits

/-- Pools in which each file has its pinned slots, and every life a slot behind them of its own. -/
def Sound (pins : File → Nat) (p : Pools) : Prop :=
  ∀ file, (p.pool file).Sound (pins file)

/-- A claim takes a slot of the file of its width and leaves the other file. -/
theorem claim_eq (p : Pools) (width : Width) (start last : Nat) :
    (p.claim width start last).1 =
        .relative width.file ((p.pool width.file).claim start last).1 ∧
      ((p.claim width start last).2.pool width.file) =
        ((p.pool width.file).claim start last).2 ∧
      ∀ file, file ≠ width.file → (p.claim width start last).2.pool file = p.pool file := by
  cases width with
  | word =>
      refine ⟨rfl, rfl, fun file hne => ?_⟩
      cases file with
      | register => exact absurd rfl hne
      | bit => rfl
  | bit =>
      refine ⟨rfl, rfl, fun file hne => ?_⟩
      cases file with
      | register => rfl
      | bit => exact absurd rfl hne

/-- A claim keeps pools sound. -/
theorem Sound.claim {pins : File → Nat} {p : Pools} (h : p.Sound pins) (width : Width)
    (start last : Nat) : (p.claim width start last).2.Sound pins := by
  intro file
  obtain ⟨_, hsame, hother⟩ := p.claim_eq width start last
  by_cases hfile : file = width.file
  · rw [hfile, hsame]
    exact (SlotPool.claim_spec (h width.file) start last).sound
  · rw [hother file hfile]
    exact h file

/-- A claim leaves open when slots are used again. -/
theorem Sound.reuse_claim {pins : File → Nat} {p : Pools} (h : p.Sound pins) (width : Width)
    (start last : Nat) (file : File) :
    ((p.claim width start last).2.pool file).reuse = (p.pool file).reuse := by
  obtain ⟨_, hsame, hother⟩ := p.claim_eq width start last
  by_cases hfile : file = width.file
  · rw [hfile, hsame]
    exact (SlotPool.claim_spec (h width.file) start last).reuse_eq
  · rw [hother file hfile]

/-- A life that is not over when a claim starts outlives the claim. -/
theorem Sound.life_claim {pins : File → Nat} {p : Pools} (h : p.Sound pins) {width : Width}
    {start last : Nat} {file : File} {life : Life} (hlife : life ∈ (p.pool file).lives)
    (hlater : (p.pool file).reuse.expired life.expiry start = false) :
    life ∈ ((p.claim width start last).2.pool file).lives ∧
      (p.claim width start last).1 ≠ .relative file life.slot := by
  obtain ⟨hoffset, hsame, hother⟩ := p.claim_eq width start last
  by_cases hfile : file = width.file
  · subst hfile
    obtain ⟨hne, hkeep⟩ := (SlotPool.claim_spec (h width.file) start last).later life hlife hlater
    rw [hsame, hoffset]
    refine ⟨hkeep, fun heq => hne ?_⟩
    exact (Offset.relative.inj heq).2.symm
  · rw [hother file hfile, hoffset]
    exact ⟨hlife, fun heq => hfile (Offset.relative.inj heq).1.symm⟩

/-- Claims never lower a count. -/
theorem Sound.count_le_claim {pins : File → Nat} {p : Pools} (h : p.Sound pins) (width : Width)
    (start last : Nat) (file : File) :
    (p.pool file).count ≤ ((p.claim width start last).2.pool file).count := by
  obtain ⟨_, hsame, hother⟩ := p.claim_eq width start last
  by_cases hfile : file = width.file
  · rw [hfile, hsame]
    exact (SlotPool.claim_spec (h width.file) start last).count_le
  · exact Nat.le_of_eq (congrArg SlotPool.count (hother file hfile)).symm

end Pools

/-- A slot, if it is one, is a local's. -/
def Scope.Knows (scope : Scope) (offset : Offset) : Prop :=
  ∀ file slot, offset = .relative file slot → ∃ name, scope.locals.find? name = some offset

theorem Scope.knows_absolute (scope : Scope) (address : Nat) : scope.Knows (.absolute address) := by
  intro file slot heq
  cases heq

theorem Scope.knows_unresolved (scope : Scope) : scope.Knows .unresolved := by
  intro file slot heq
  cases heq

/-- Variables have the slots of locals, or addresses. -/
theorem Scope.knows_var {scope : Scope} {body : List Op} {index : Nat} {var : Var} {offset : Offset}
    (h : scope.var body index var = .ok offset) : scope.Knows offset := by
  cases var with
  | localVar name =>
      rw [Scope.var] at h
      split at h
      · rename_i local' hfind
        cases h
        exact fun _ _ _ => ⟨name, hfind⟩
      · cases h
  | globalVar label =>
      obtain ⟨address, _, h⟩ := bind_eq_ok.mp h
      cases h
      exact scope.knows_absolute address

namespace Visit

variable {v : Visit}

/-- The op takes a slot of the width from the pools, whatever is in them, until its
last use. -/
def ClaimsAt (v : Visit) (index : Nat) (op : Op) (width : Width) : Prop :=
  ∀ pools, v.offset pools index (op.lastUse.getD index) op.instruction =
    .ok (claimed pools width index (op.lastUse.getD index))

/-- The op at the index of the visited body takes a slot of the width. -/
def Claims (v : Visit) (index : Nat) (width : Width) : Prop :=
  ∃ op, v.body[index]? = some op ∧ v.ClaimsAt index op width

/-- **An op takes a slot or leaves the pools alone**, and which of the two does not
depend on the pools.  An op that takes none gets no slot but a local's; and if it computes
a value, it gets no offset here, or is a comparison that its last user copies. -/
theorem offset_cases {pools next : Pools} {index : Nat} {op : Op} {offset : Option Offset}
    (h : v.offset pools index (op.lastUse.getD index) op.instruction = .ok (offset, next)) :
    (∃ width, v.ClaimsAt index op width ∧ op.instruction.resultFile? = some width.file ∧
        (offset, next) = claimed pools width index (op.lastUse.getD index)) ∨
      (next = pools ∧ (∀ given, offset = some given → v.scope.Knows given) ∧
        (op.instruction.resultFile? = none ∨
          (offset = none ∧ ∀ var, op.instruction = .portIn var → index ∈ v.passed) ∨
          ∃ var, copyTarget? v.body index (op.lastUse.getD index) = .ok (some var))) := by
  obtain ⟨instruction, old, lastUse, position⟩ := op
  cases instruction with
  | jump | branch | assign =>
      obtain ⟨_, _, h⟩ := bind_eq_ok.mp h
      cases h
      exact .inr ⟨rfl, nofun, .inl rfl⟩
  | register var | bit var =>
      obtain ⟨given, hgiven, h⟩ := bind_eq_ok.mp h
      cases h
      exact .inr ⟨rfl, fun _ heq => Option.some.inj heq ▸ Scope.knows_var hgiven, .inl rfl⟩
  | ram | rom | portOut =>
      obtain ⟨address, _, h⟩ := bind_eq_ok.mp h
      cases h
      exact .inr ⟨rfl, fun _ heq => Option.some.inj heq ▸ v.scope.knows_absolute address, .inl rfl⟩
  | portIn var =>
      by_cases hpassed : v.passed.contains index = true
      · simp only [Visit.offset, hpassed, if_true] at h
        cases h
        refine .inr ⟨rfl, nofun, .inr (.inl ⟨rfl, fun _ _ => ?_⟩)⟩
        simpa using hpassed
      · simp only [Visit.offset, hpassed] at h
        obtain ⟨u, hu, h⟩ := bind_eq_ok.mp h
        cases h
        refine .inl ⟨.word, fun pools' => ?_, rfl, rfl⟩
        simp only [Visit.offset, hpassed]
        exact bind_eq_ok.mpr ⟨u, hu, rfl⟩
  | int value =>
      by_cases hliteral : v.literals.contains index = true
      · simp only [Visit.offset, hliteral, if_true] at h
        cases h
        exact .inl ⟨.word, fun pools' => by simp only [Visit.offset, hliteral, if_true], rfl, rfl⟩
      · simp only [Visit.offset, hliteral] at h
        cases h
        exact .inr ⟨rfl, nofun, .inr (.inl ⟨rfl, nofun⟩)⟩
  | bool value =>
      by_cases hliteral : v.literals.contains index = true
      · simp only [Visit.offset, hliteral, if_true] at h
        cases h
        exact .inl ⟨.bit, fun pools' => by simp only [Visit.offset, hliteral, if_true], rfl, rfl⟩
      · simp only [Visit.offset, hliteral] at h
        cases h
        exact .inr ⟨rfl, nofun, .inr (.inl ⟨rfl, nofun⟩)⟩
  | compare op width lhs rhs =>
      simp only [Visit.offset, Visit.comparison] at h
      split at h
      · cases h
        exact .inr ⟨rfl, nofun, .inr (.inl ⟨rfl, nofun⟩)⟩
      · rename_i hfeeds
        obtain ⟨target, htarget, h⟩ := bind_eq_ok.mp h
        cases target with
        | some var =>
            obtain ⟨place, hplace, h⟩ := bind_eq_ok.mp h
            cases h
            exact .inr ⟨rfl, fun _ heq => Option.some.inj heq ▸ Scope.knows_var hplace,
              .inr (.inr ⟨var, htarget⟩)⟩
        | none =>
            cases h
            refine .inl ⟨.bit, fun pools' => ?_, rfl, rfl⟩
            simp only [Visit.offset, Visit.comparison, hfeeds]
            exact bind_eq_ok.mpr ⟨_, htarget, rfl⟩
  | math op width lhs rhs =>
      cases h
      exact .inl ⟨width, fun _ => rfl, rfl, rfl⟩
  | element | address =>
      cases h
      exact .inl ⟨.word, fun _ => rfl, rfl, rfl⟩
  | call function result =>
      cases result with
      | none =>
          cases h
          exact .inr ⟨rfl, nofun, .inl rfl⟩
      | some width =>
          cases h
          exact .inl ⟨width, fun _ => rfl, rfl, rfl⟩
  | removed | marker | parameter | ret | timer | level | halt | pause | reset | restart | nop =>
      cases h
      exact .inr ⟨rfl, nofun, .inl rfl⟩

/-- The first op of a visit gets its offset, and the visit goes on behind it. -/
theorem ops_cons {pools final : Pools} {index : Nat} {op : Op} {rest out : List Op}
    (h : v.ops pools index (op :: rest) = .ok (out, final)) :
    ∃ offset next out',
      v.offset pools index (op.lastUse.getD index) op.instruction = .ok (offset, next) ∧
      v.ops next (index + 1) rest = .ok (out', final) ∧
      out = { op with offset := offset.getD op.offset } :: out' := by
  rw [Visit.ops] at h
  obtain ⟨⟨offset, next⟩, hoffset, h⟩ := bind_eq_ok.mp h
  obtain ⟨⟨out', final'⟩, hrest, h⟩ := bind_eq_ok.mp h
  cases h
  exact ⟨offset, next, out', hoffset, hrest, rfl⟩

/-- Visited ops keep everything but their offsets. -/
theorem ops_getElem? :
    ∀ {ops out : List Op} {pools final : Pools} {index : Nat},
      v.ops pools index ops = .ok (out, final) → ∀ n,
      (ops[n]? = none → out[n]? = none) ∧
      ∀ op, ops[n]? = some op → ∃ offset pools' next,
        v.offset pools' (index + n) (op.lastUse.getD (index + n)) op.instruction =
          .ok (offset, next) ∧
        out[n]? = some { op with offset := offset.getD op.offset }
  | [], out, pools, final, index, h, n => by
    cases h
    exact ⟨fun _ => rfl, by simp⟩
  | op :: rest, out, pools, final, index, h, n => by
    obtain ⟨offset, next, out', hoffset, hrest, rfl⟩ := ops_cons h
    cases n with
    | zero =>
        refine ⟨by simp, fun op' hop' => ?_⟩
        cases hop'
        exact ⟨offset, pools, next, hoffset, rfl⟩
    | succ n =>
        have ih := ops_getElem? hrest n
        rw [Nat.add_assoc, Nat.add_comm 1 n] at ih
        exact ih

/-- A visit keeps pools sound and never lowers a count. -/
theorem ops_sound {pins : File → Nat} :
    ∀ {ops out : List Op} {pools final : Pools} {index : Nat}, pools.Sound pins →
      v.ops pools index ops = .ok (out, final) →
      final.Sound pins ∧ ∀ file, (pools.pool file).count ≤ (final.pool file).count
  | [], out, pools, final, index, hsound, h => by
    cases h
    exact ⟨hsound, fun _ => Nat.le_refl _⟩
  | op :: rest, out, pools, final, index, hsound, h => by
    obtain ⟨offset, next, out', hoffset, hrest, rfl⟩ := ops_cons h
    rcases offset_cases hoffset with ⟨width, _, _, hclaimed⟩ | ⟨rfl, _⟩
    · cases hclaimed
      obtain ⟨hfinal, hcount⟩ := ops_sound (hsound.claim width index _) hrest
      exact ⟨hfinal, fun file =>
        Nat.le_trans (hsound.count_le_claim width index _ file) (hcount file)⟩
    · exact ops_sound hsound hrest

/-- **A slot is not claimed while a life holds it.**  No op gets the slot of a life in the
pools before that is over. -/
theorem slot_ne_of_life {pins : File → Nat} {file : File} {life : Life} :
    ∀ {ops out : List Op} {pools final : Pools} {index : Nat}, pools.Sound pins →
      v.ops pools index ops = .ok (out, final) → life ∈ (pools.pool file).lives →
      ∀ n op width op', (pools.pool file).reuse.expired life.expiry (index + n) = false →
        ops[n]? = some op →
        v.ClaimsAt (index + n) op width → out[n]? = some op' →
        op'.offset ≠ .relative file life.slot
  | [], out, pools, final, index, _, _, _, n, op, width, op', _, hop, _, _ => by
    cases hop
  | first :: rest, out, pools, final, index, hsound, h, hlife, n, op, width, op', hlt, hop, hclaim,
      hop' => by
    obtain ⟨offset, next, out', hoffset, hrest, rfl⟩ := ops_cons h
    cases n with
    | zero =>
        cases hop
        cases hop'
        have hclaim : v.ClaimsAt index first width := hclaim
        rw [hclaim pools] at hoffset
        cases hoffset
        exact (hsound.life_claim hlife hlt).2
    | succ n =>
        have hindex : index + 1 + n = index + (n + 1) := by omega
        have hnow := SlotPool.not_expired_of_le hlt (Nat.le_add_right index (n + 1))
        have hnext : next.Sound pins ∧ life ∈ (next.pool file).lives ∧
            (next.pool file).reuse = (pools.pool file).reuse := by
          rcases offset_cases hoffset with ⟨width', _, _, hclaimed⟩ | ⟨rfl, _⟩
          · cases hclaimed
            exact ⟨hsound.claim width' index _, (hsound.life_claim hlife hnow).1,
              hsound.reuse_claim width' index _ file⟩
          · exact ⟨hsound, hlife, rfl⟩
        refine slot_ne_of_life hnext.1 hrest hnext.2.1 n op width op' ?_ hop ?_ hop'
        · rw [hnext.2.2, hindex]
          exact hlt
        · rw [hindex]
          exact hclaim

/-- **What the ops of a visit get.**  An op that claims gets a slot that is not
pinned and that the pools count in the end; no op that claims before its life is over
gets the same. -/
theorem ops_spec {pins : File → Nat} :
    ∀ {ops out : List Op} {pools final : Pools} {index : Nat}, pools.Sound pins →
      v.ops pools index ops = .ok (out, final) →
      ∀ n op width, ops[n]? = some op → v.ClaimsAt (index + n) op width →
      ∃ slot op', out[n]? = some op' ∧ op'.offset = .relative width.file slot ∧
        pins width.file ≤ slot ∧ slot < (final.pool width.file).count ∧
        ∀ k opk widthk opk', n < k →
          (pools.pool width.file).reuse.expired (op.lastUse.getD (index + n)) (index + k) = false →
          ops[k]? = some opk → v.ClaimsAt (index + k) opk widthk → out[k]? = some opk' →
          opk'.offset ≠ .relative width.file slot
  | [], out, pools, final, index, _, _, n, op, width, hop, _ => by
    cases hop
  | first :: rest, out, pools, final, index, hsound, h, n, op, width, hop, hclaim => by
    obtain ⟨offset, next, out', hoffset, hrest, rfl⟩ := ops_cons h
    cases n with
    | zero =>
        cases hop
        have hclaim : v.ClaimsAt index first width := hclaim
        rw [hclaim pools] at hoffset
        cases hoffset
        have htaken := SlotPool.claim_spec (hsound width.file) index
          (first.lastUse.getD index)
        obtain ⟨hslot, hpool, _⟩ := pools.claim_eq width index (first.lastUse.getD index)
        have hnext := hsound.claim width index (first.lastUse.getD index)
        have hcount := (ops_sound hnext hrest).2 width.file
        rw [hpool] at hcount
        refine ⟨_, _, rfl, hslot, htaken.pins_le, Nat.lt_of_lt_of_le htaken.lt_count hcount, ?_⟩
        intro k opk widthk opk' hk hlast hopk hclaimk hopk'
        obtain ⟨k, rfl⟩ : ∃ m, k = m + 1 := ⟨k - 1, by omega⟩
        have hindex : index + 1 + k = index + (k + 1) := by omega
        have hlife : (⟨first.lastUse.getD index, _⟩ : Life) ∈
            ((pools.claim width index (first.lastUse.getD index)).2.pool width.file).lives :=
          hpool ▸ htaken.life
        refine slot_ne_of_life hnext hrest hlife k opk widthk opk' ?_ hopk ?_ hopk'
        · rw [hsound.reuse_claim, hindex]
          exact hlast
        · rw [hindex]
          exact hclaimk
    | succ n =>
        have hnext : next.Sound pins ∧
            (next.pool width.file).reuse = (pools.pool width.file).reuse := by
          rcases offset_cases hoffset with ⟨width', _, _, hclaimed⟩ | ⟨rfl, _⟩
          · cases hclaimed
            exact ⟨hsound.claim width' index _, hsound.reuse_claim width' index _ width.file⟩
          · exact ⟨hsound, rfl⟩
        have hindex : ∀ m, index + 1 + m = index + (m + 1) := fun m => by omega
        have hclaim' : v.ClaimsAt (index + 1 + n) op width := by
          rw [hindex]
          exact hclaim
        obtain ⟨slot, op', hop', hslot, hpins, hlt, hothers⟩ :=
          ops_spec hnext.1 hrest n op width hop hclaim'
        refine ⟨slot, op', hop', hslot, hpins, hlt, ?_⟩
        intro k opk widthk opk' hk hlast hopk hclaimk hopk'
        obtain ⟨k, rfl⟩ : ∃ m, k = m + 1 := ⟨k - 1, by omega⟩
        refine hothers k opk widthk opk' (by omega) ?_ hopk ?_ hopk'
        · rw [hnext.2, hindex, hindex]
          exact hlast
        · rw [hindex]
          exact hclaimk

end Visit

end Storage

end Stackless
