import Mathlib.Data.Finset.Card
import Stackless.Proofs.Threading

/-!
# Simplification settles

Rounds of simplification are repeated until one changes nothing.  A round either takes something
out, and of that there is only so much, or it only sends jumps elsewhere; and then the next round
changes nothing at all.

* `Lossless` — nothing was taken out;
* `Settled` — what a body is like that a round leaves alone, and why each step does;
* `settled_of_lossless` — after a round that takes nothing out a body is settled.  Runs of markers
  were not merged, so that looking up names again finds the same markers; and jumps that were
  threaded stay where they are (`stable_threadAll`);
* `Rounds` — rounds until one changes nothing or fails, without a bound on their number;
* `exists_rounds` — they end after no more rounds than there are live ops, and two;
* `simplification_settles` — simplification ends, and simplifying again changes nothing.

What is looked up, merged and dead depends on the **skeleton** of a body only: its instructions
without their targets.
-/

namespace Stackless.Flat

section Thinning

variable {body mid out : List Op}

/-- Nothing was taken out that was there before. A round of this kind only sends jumps elsewhere. -/
def Lossless (body out : List Op) : Prop :=
  ∀ i : Nat, (codeOf out)[i]? = some .removed → (codeOf body)[i]? = some .removed

/-- If two steps together take nothing out, neither does. -/
theorem Lossless.split {may may' : Instruction → Bool} (h : Lossless body out)
    (htrims : Trims may body mid) (htrims' : Trims may' mid out) :
    Lossless body mid ∧ Lossless mid out :=
  ⟨fun i hremoved => h i (htrims'.removed hremoved),
    fun i hremoved => htrims.removed (h i hremoved)⟩

/-- Every op was kept or taken out. -/
def Thins (body out : List Op) : Prop :=
  ∀ i : Nat, out[i]? = body[i]? ∨ out[i]? = body[i]?.map Op.remove

/-- Taking out ops on a condition thins a body. -/
theorem thins_of_getElem? {goes : Nat → Op → Bool}
    (h : ∀ i : Nat, out[i]? = body[i]?.map fun op => if goes i op then op.remove else op) :
    Thins body out := by
  intro i
  rw [h i]
  cases body[i]? with
  | none => exact .inl rfl
  | some op =>
      rw [Option.map_some, Option.map_some]
      split
      · exact .inr rfl
      · exact .inl rfl

theorem mergeMarkers_thins (run : Option Landing) (index : Nat) (ops : List Op) :
    Thins ops (mergeMarkers run index ops) :=
  thins_of_getElem? (mergeMarkers_getElem? ops run index)

theorem stripAfter_thins (stops : Instruction → Bool) (dead : Bool) (ops : List Op) :
    Thins ops (stripAfter stops dead ops) := by
  have hgoes : ∀ i : Nat, (stripAfter stops dead ops)[i]? = ops[i]?.map fun op =>
      if !survives stops (deadBefore stops dead ops i) op.instruction then op.remove else op := by
    intro i
    rw [stripAfter_getElem?]
    congr 1
    funext op
    cases survives stops (deadBefore stops dead ops i) op.instruction <;> rfl
  exact thins_of_getElem? hgoes

theorem removeUnusedMarkers_thins (ops : List Op) : Thins ops (removeUnusedMarkers ops) :=
  thins_of_getElem? (removeUnusedMarkers_getElem? ops)

theorem dropNoopAt_thins (ops : List Op) (index : Nat) : Thins ops (dropNoopAt ops index) := by
  intro i
  rw [dropNoopAt, getElem?_modify_eq]
  split
  · cases ops[i]? with
    | none => exact .inl rfl
    | some op =>
        rw [Option.map_some, Option.map_some]
        split
        · split
          · exact .inr rfl
          · exact .inl rfl
        · exact .inl rfl
  · exact .inl rfl

/-- A step that thins the ops behind the first one thins a body. -/
theorem Thins.pastEntry {step : List Op → List Op} (h : ∀ ops, Thins ops (step ops)) :
    Thins body (pastEntry step body) := by
  cases body with
  | nil => exact fun _ => .inl rfl
  | cons entry rest =>
      intro i
      cases i with
      | zero => exact .inl rfl
      | succ n => exact h rest n

/-- An op that is taken out again stays as it is. -/
theorem remove_eq_self {op : Op} (h : op.instruction = .removed) : op.remove = op := by
  rw [Op.remove, ← h]

/-- **Where nothing is taken out, nothing happens.** -/
theorem Thins.eq_self (h : Thins body out) (hlossless : Lossless body out) : out = body := by
  apply List.ext_getElem?
  intro i
  rcases h i with heq | heq
  · exact heq
  · cases hop : body[i]? with
    | none =>
        rw [hop] at heq
        exact heq
    | some op =>
        rw [hop, Option.map_some] at heq
        have hremoved := hlossless i (codeOf_getElem? heq)
        rw [codeOf_getElem? hop] at hremoved
        rw [heq, remove_eq_self (Option.some.inj hremoved)]

end Thinning

section Skeleton

/-- The instructions of a body without their targets. -/
def skeleton (body : List Op) : List Instruction :=
  body.map fun op => op.instruction.retarget default

/-- An op that was redirected has the same skeleton. -/
theorem skeleton_of_trims {body out : List Op} (h : Trims (fun _ => false) body out) :
    skeleton out = skeleton body := by
  apply List.ext_getElem?
  intro i
  rw [skeleton, skeleton, List.getElem?_map, List.getElem?_map]
  cases hop : body[i]? with
  | none =>
      have hout : out[i]? = none := by
        rw [List.getElem?_eq_none_iff] at hop ⊢
        rw [h.length_eq]
        exact hop
      rw [hout]
  | some op =>
      obtain ⟨op', hop', htrim⟩ := h.exists_new hop
      rw [hop']
      rcases htrim with ⟨hfalse, _⟩ | ⟨target, rfl⟩
      · cases hfalse
      · obtain ⟨instruction, offset, lastUse, position⟩ := op
        cases instruction <;> rfl

/-- Bodies with the same instructions have the same skeleton. -/
theorem skeleton_of_codeOf {body out : List Op} (h : codeOf out = codeOf body) :
    skeleton out = skeleton body := by
  have hmap : ∀ ops : List Op, skeleton ops = (codeOf ops).map (·.retarget default) := fun ops => by
    rw [codeOf, List.map_map]
    rfl
  rw [hmap, hmap, h]

theorem skeleton_tail {body out : List Op} (h : skeleton out = skeleton body) :
    skeleton out.tail = skeleton body.tail := by
  rw [skeleton, skeleton, List.map_tail, List.map_tail]
  exact congrArg List.tail h

theorem nextLive_of_codeOf {body out : List Op} (h : codeOf out = codeOf body) (start : Nat) :
    nextLive out start = nextLive body start := by
  have hmap : ∀ ops : List Op, ops.map (·.instruction.isRemoved) = (codeOf ops).map (·.isRemoved) :=
    fun ops => by
      rw [codeOf, List.map_map]
      rfl
  exact nextLive_congr (by rw [hmap, hmap, h]) start

/-- What does not depend on where an instruction goes is the same for the same skeleton. -/
theorem kind_congr {α : Type} (kind : Instruction → α)
    (hkind : ∀ x target, kind (x.retarget target) = kind x) {x y : Instruction}
    (h : x.retarget default = y.retarget default) : kind x = kind y := by
  rw [← hkind x default, h, hkind y default]

theorem skeleton_cons {op op' : Op} {ops ops' : List Op}
    (h : skeleton (op' :: ops') = skeleton (op :: ops)) :
    op'.instruction.retarget default = op.instruction.retarget default ∧
      skeleton ops' = skeleton ops :=
  List.cons.inj h

/-- The run goes on behind an op as its skeleton says. -/
theorem landingAt_congr {op op' : Op}
    (h : op'.instruction.retarget default = op.instruction.retarget default)
    (run : Option Landing) (index : Nat) : landingAt run index op' = landingAt run index op :=
  kind_congr (fun x => landingAt run index { op with instruction := x })
    (fun x _ => by cases x <;> rfl) h

/-- **Where names lead** depends on the skeleton. -/
theorem landingOf?_congr (name : String) :
    ∀ {ops ops' : List Op}, skeleton ops' = skeleton ops → ∀ (run : Option Landing) (index : Nat),
      landingOf? name run index ops' = landingOf? name run index ops
  | [], [], _, _, _ => rfl
  | [], _ :: _, h, _, _ => by cases h
  | _ :: _, [], h, _, _ => by cases h
  | op :: ops, op' :: ops', h, run, index => by
    obtain ⟨hop, hops⟩ := skeleton_cons h
    have hmarker : (op'.instruction = .marker name) = (op.instruction = .marker name) :=
      kind_congr (fun x => x = .marker name)
        (fun x _ => by cases x <;> simp [Instruction.retarget]) hop
    rw [landingOf?, landingOf?, landingAt_congr hop, landingOf?_congr name hops]
    simp only [hmarker]

/-- **Whether runs are merged** depends on the skeleton. -/
theorem mergeMarkers_eq_self :
    ∀ {ops ops' : List Op}, skeleton ops' = skeleton ops → ∀ (run : Option Landing) (index : Nat),
      mergeMarkers run index ops = ops → mergeMarkers run index ops' = ops'
  | [], [], _, _, _, _ => rfl
  | [], _ :: _, h, _, _, _ => by cases h
  | _ :: _, [], h, _, _, _ => by cases h
  | op :: ops, op' :: ops', h, run, index, hself => by
    obtain ⟨hop, hops⟩ := skeleton_cons h
    rw [mergeMarkers] at hself
    obtain ⟨hhead, hrest⟩ := List.cons.inj hself
    have hmarker : op'.instruction.isMarker = op.instruction.isMarker :=
      kind_congr Instruction.isMarker isMarker_retarget hop
    have hstays : (op.instruction.isMarker && run.isSome) = false := by
      cases hgoes : op.instruction.isMarker && run.isSome with
      | false => rfl
      | true =>
          rw [hgoes, if_pos rfl] at hhead
          rw [← hhead] at hgoes
          cases hgoes
    rw [mergeMarkers, hmarker, hstays, landingAt_congr hop,
      mergeMarkers_eq_self hops _ _ hrest]
    rfl

/-- **Whether there is dead code** depends on the skeleton. -/
theorem stripAfter_eq_self {stops : Instruction → Bool}
    (hstops : ∀ x target, stops (x.retarget target) = stops x) :
    ∀ {ops ops' : List Op}, skeleton ops' = skeleton ops → ∀ dead : Bool,
      stripAfter stops dead ops = ops → stripAfter stops dead ops' = ops'
  | [], [], _, _, _ => rfl
  | [], _ :: _, h, _, _ => by cases h
  | _ :: _, [], h, _, _ => by cases h
  | op :: ops, op' :: ops', h, dead, hself => by
    obtain ⟨hop, hops⟩ := skeleton_cons h
    have hsurvives : survives stops dead op'.instruction = survives stops dead op.instruction :=
      kind_congr (survives stops dead) (fun x target => by
        simp only [survives, isRemoved_retarget, isMarker_retarget, isReturn_retarget, hstops]) hop
    have hafter : deadAfter stops dead op'.instruction = deadAfter stops dead op.instruction :=
      kind_congr (deadAfter stops dead) (fun x target => by
        simp only [deadAfter, isRemoved_retarget, isMarker_retarget, isReturn_retarget, hstops]) hop
    rw [stripAfter_cons] at hself ⊢
    obtain ⟨hhead, hrest⟩ := List.cons.inj hself
    have hstays : survives stops dead op.instruction = true := by
      cases hs : survives stops dead op.instruction with
      | true => rfl
      | false =>
          rw [hs] at hhead
          rw [← show op.remove = op from hhead] at hs
          simp [survives, Op.remove, Instruction.isRemoved] at hs
    rw [hsurvives, hstays, hafter, stripAfter_eq_self hstops hops _ hrest]
    rfl

end Skeleton

section Settled

variable {body out : List Op} {label : String}

/-- A body that a round leaves alone. There is one field for each step of a round, which says that
the step finds nothing to do. -/
structure Settled (body : List Op) : Prop where
  /-- No marker follows another. -/
  merged : mergeMarkers none 1 body.tail = body.tail
  /-- Looking up names leads where the jumps go already. -/
  pointed : ∀ target, Aims body target → ∃ landing,
    landingOf? target.marker none 1 body.tail = some landing ∧
      target = { marker := landing.name, index := some landing.index }
  /-- No code is dead. -/
  returns : stripAfter Instruction.isReturn false body = body
  jumps : stripAfter Instruction.isJump false body = body
  /-- Jumps that are followed lead where they go already. -/
  threaded : ∀ target, Aims body target → Stable body target
  /-- Every marker is gone to. -/
  used : ∀ index name, Marks body index name →
    ∃ target, Aims body target ∧ target.index = some index
  /-- No jump goes to the next instruction. -/
  apart : ∀ (i : Nat) target, (codeOf body)[i]? = some (.jump target) →
    nextLive body (i + 1) ≠ target.index

/-- The first op keeps out of a step that leaves the others alone. -/
theorem pastEntry_eq_self {step : List Op → List Op} :
    pastEntry step body = body ↔ body = [] ∨ step body.tail = body.tail := by
  cases body with
  | nil => simp [pastEntry]
  | cons entry rest => simp [pastEntry]

/-- Jumps that go to their landings are pointed at them again. -/
theorem pointAll_eq_self {lookup : String → Option Landing} :
    ∀ {ops : List Op} {index : Nat}, (∀ target, Aims ops target → ∃ landing,
      lookup target.marker = some landing ∧
        target = { marker := landing.name, index := some landing.index }) →
      pointAll label lookup index ops = .ok ops
  | [], _, _ => rfl
  | op :: ops, index, h => by
    have hrest : pointAll label lookup (index + 1) ops = .ok ops := by
      refine pointAll_eq_self fun target haims => ?_
      obtain ⟨other, hmem, htarget⟩ := haims
      exact h target ⟨other, List.mem_cons_of_mem _ hmem, htarget⟩
    rw [pointAll]
    split
    · rw [hrest]
      rfl
    · rename_i target htarget
      obtain ⟨landing, hlanding, heq⟩ := h target ⟨op, List.mem_cons_self, htarget⟩
      rw [hlanding, hrest]
      show Except.ok ({ op with instruction := op.instruction.retarget _ } :: ops) = .ok (op :: ops)
      rw [← heq, retarget_self htarget]

/-- Where every marker is gone to, none is taken out. -/
theorem removeUnusedMarkers_eq_self (h : ∀ index name, Marks body index name →
    ∃ target, Aims body target ∧ target.index = some index) : removeUnusedMarkers body = body := by
  apply List.ext_getElem?
  intro i
  rw [removeUnusedMarkers_getElem?]
  cases hop : body[i]? with
  | none => rfl
  | some op =>
      rw [Option.map_some]
      split
      · rename_i hgoes
        simp only [Bool.and_eq_true, decide_eq_true_eq, Bool.not_eq_true', List.contains_eq_mem,
          decide_eq_false_iff_not] at hgoes
        obtain ⟨hmarker, hpos, hunused⟩ := hgoes
        cases hinstr : op.instruction with
        | marker name =>
            exact absurd (mem_targeted.mpr (h i name ⟨hpos, op, hop, hinstr⟩)) hunused
        | _ =>
            rw [hinstr] at hmarker
            cases hmarker
      · rfl

/-- A jump that does not go to the next instruction stays. -/
theorem dropNoopAt_eq_self {index : Nat} (h : ∀ target,
    (codeOf body)[index]? = some (.jump target) → nextLive body (index + 1) ≠ target.index) :
    dropNoopAt body index = body := by
  apply List.ext_getElem?
  intro i
  rw [dropNoopAt, getElem?_modify_eq]
  split
  · rename_i heq
    subst heq
    cases hop : body[index]? with
    | none => rfl
    | some op =>
        rw [Option.map_some]
        split
        · rename_i target hinstr
          have hnext := h target (by rw [codeOf_getElem? hop, hinstr])
          simp [hnext]
        · rfl
  · rfl

/-- **A round leaves a settled body alone.** -/
theorem Settled.round (h : Settled body) (label : String) : round label body = .ok body := by
  have hresolve : resolve label body = .ok body := by
    rw [resolve, pastEntry_eq_self.mpr (.inr h.merged)]
    exact pointAll_eq_self h.pointed
  have hnoops : removeNoopJumps body = body :=
    List.foldl_fixed' (fun index => dropNoopAt_eq_self (h.apart index)) _
  rw [Flat.round, hresolve]
  show Except.ok _ = _
  rw [h.returns, threadAll_of_stable h.threaded, removeUnusedMarkers_eq_self h.used, h.jumps,
    hnoops]

/-- The same jump comes next in bodies with the same instructions. -/
theorem jumpAfter?_congr (hcode : codeOf out = codeOf body) (target : Target) :
    jumpAfter? out target = jumpAfter? body target := by
  unfold jumpAfter?
  cases target.index with
  | none => rfl
  | some marker =>
      simp only [Option.bind_eq_bind, Option.bind_some, nextLive_of_codeOf hcode]
      cases nextLive body (marker + 1) with
      | none => rfl
      | some next =>
          have hinstr : out[next]?.map (·.instruction) = body[next]?.map (·.instruction) := by
            rw [← List.getElem?_map, ← List.getElem?_map]
            exact congrArg (·[next]?) hcode
          cases hop : body[next]? with
          | none =>
              rw [hop, Option.map_none, Option.map_eq_none_iff] at hinstr
              rw [Option.bind_some, Option.bind_some, hop, hinstr]
          | some op =>
              rw [hop, Option.map_some] at hinstr
              obtain ⟨op', hop', heq⟩ := Option.map_eq_some_iff.mp hinstr
              simp only [Option.bind_some, hop, hop', heq]

/-- **Whether a body is settled depends on its instructions.** -/
theorem Settled.of_codeOf_eq (h : Settled body) (hcode : codeOf out = codeOf body) : Settled out := by
  have hskeleton := skeleton_of_codeOf hcode
  have htail := skeleton_tail hskeleton
  have haims : ∀ target, Aims out target → Aims body target := fun target h => by
    rw [aims_iff, hcode] at h
    exact aims_iff.mpr h
  refine ⟨mergeMarkers_eq_self htail none 1 h.merged, fun target htarget => ?_,
    stripAfter_eq_self isReturn_retarget hskeleton false h.returns,
    stripAfter_eq_self isJump_retarget hskeleton false h.jumps,
    fun target htarget => ?_, fun index name hmarks => ?_, fun i target hjump => ?_⟩
  · rw [landingOf?_congr target.marker htail]
    exact h.pointed target (haims target htarget)
  · exact (h.threaded target (haims target htarget)).congr (jumpAfter?_congr hcode)
  · rw [marks_iff, hcode] at hmarks
    obtain ⟨target, htarget, hindex⟩ := h.used index name (marks_iff.mpr hmarks)
    rw [aims_iff, ← hcode] at htarget
    exact ⟨target, aims_iff.mpr htarget, hindex⟩
  · rw [hcode] at hjump
    rw [nextLive_of_codeOf hcode]
    exact h.apart i target hjump

/-- **Jumps to the next instruction are taken out one by one**, so if none is taken out, there is
none. -/
theorem noops_of_lossless : ∀ {indices : List Nat},
    Lossless body (indices.foldl dropNoopAt body) →
      indices.foldl dropNoopAt body = body ∧ ∀ index ∈ indices, dropNoopAt body index = body
  | [], _ => ⟨rfl, fun _ hmem => absurd hmem List.not_mem_nil⟩
  | first :: rest, h => by
    rw [List.foldl_cons] at h ⊢
    obtain ⟨hfirst, hrest⟩ := h.split (dropNoopAt_trims body first)
      (Trims.foldl isLink_redirect dropNoopAt_trims rest (dropNoopAt body first))
    have hself : dropNoopAt body first = body := (dropNoopAt_thins body first).eq_self hfirst
    rw [hself] at hrest ⊢
    obtain ⟨hall, heach⟩ := noops_of_lossless hrest
    exact ⟨hall, List.forall_mem_cons.mpr ⟨hself, heach⟩⟩

/-- A jump that stays does not go to the next instruction. -/
theorem nextLive_ne_of_dropNoopAt {index : Nat} {target : Target}
    (hself : dropNoopAt body index = body)
    (hjump : (codeOf body)[index]? = some (.jump target)) (hindex : target.index.isSome = true) :
    nextLive body (index + 1) ≠ target.index := by
  obtain ⟨op, hop, hinstr⟩ := exists_of_codeOf_getElem? hjump
  intro hnext
  have hgone : (dropNoopAt body index)[index]? = some op.remove := by
    simp [dropNoopAt, hop, hinstr, hindex, hnext]
  rw [hself, hop] at hgone
  rw [Option.some.inj hgone] at hinstr
  cases hinstr

/-- What a round does that takes nothing out: it looks up the names of jumps and threads them, and
none of its other steps does anything. -/
structure Rerouted (label : String) (body pointed : List Op) : Prop where
  merged : mergeMarkers none 1 body.tail = body.tail
  resolved : pointAll label (fun name => landingOf? name none 1 body.tail) 0 body = .ok pointed
  returns : stripAfter Instruction.isReturn false pointed = pointed
  used : removeUnusedMarkers (threadAll pointed) = threadAll pointed
  jumps : stripAfter Instruction.isJump false (threadAll pointed) = threadAll pointed
  noops : ∀ index ∈ List.range (threadAll pointed).length,
    dropNoopAt (threadAll pointed) index = threadAll pointed

/-- **A round that takes nothing out** only changes where jumps go. -/
theorem exists_rerouted (h : round label body = .ok out) (hlossless : Lossless body out) :
    ∃ pointed, out = threadAll pointed ∧ Rerouted label body pointed := by
  obtain ⟨pointed, hresolve, rfl⟩ := round_eq_ok h
  have hfrom5 := fun ops => (stripAfter_trims Instruction.isJump false ops).any
    (removeNoopJumps_trims _)
  have hfrom4 := fun ops => (removeUnusedMarkers_trims ops).any (hfrom5 _)
  have hfrom3 := fun ops => (threadAll_trims ops).any (hfrom4 _)
  have hfrom2 := fun ops => (stripAfter_trims Instruction.isReturn false ops).any (hfrom3 _)
  obtain ⟨hlost, hlossless⟩ := hlossless.split (pastEntry_trims (mergeMarkers_trims none 1) body)
    ((pointAll_trims hresolve).any (hfrom2 pointed))
  have hmerged := (Thins.pastEntry (mergeMarkers_thins none 1)).eq_self hlost
  obtain ⟨_, hlossless⟩ := hlossless.split (pointAll_trims hresolve) (hfrom2 pointed)
  obtain ⟨hlost, hlossless⟩ := hlossless.split (stripAfter_trims _ false pointed) (hfrom3 _)
  have hreturns := (stripAfter_thins Instruction.isReturn false pointed).eq_self hlost
  rw [hreturns] at hlossless ⊢
  obtain ⟨_, hlossless⟩ := hlossless.split (threadAll_trims pointed) (hfrom4 _)
  obtain ⟨hlost, hlossless⟩ := hlossless.split (removeUnusedMarkers_trims _) (hfrom5 _)
  have hused := (removeUnusedMarkers_thins (threadAll pointed)).eq_self hlost
  rw [hused] at hlossless ⊢
  obtain ⟨hlost, hlossless⟩ := hlossless.split (stripAfter_trims _ false _)
    (removeNoopJumps_trims _)
  have hjumps := (stripAfter_thins Instruction.isJump false (threadAll pointed)).eq_self hlost
  rw [hjumps] at hlossless ⊢
  obtain ⟨hall, heach⟩ := noops_of_lossless hlossless
  refine ⟨pointed, hall, ?_, ?_, hreturns, hused, hjumps, heach⟩
  · rcases pastEntry_eq_self.mp hmerged with rfl | h
    · rfl
    · exact h
  · rw [resolve, hmerged] at hresolve
    exact hresolve

/-- Jumps that were pointed go to landings. -/
theorem exists_landing {lookup : String → Option Landing} {index : Nat} {ops : List Op}
    (h : pointAll label lookup index ops = .ok out) {target : Target} (haims : Aims out target) :
    ∃ (old : Target) (landing : Landing), lookup old.marker = some landing ∧
      target = { marker := landing.name, index := some landing.index } := by
  obtain ⟨op', hmem, htarget⟩ := haims
  obtain ⟨i, hop'⟩ := List.mem_iff_getElem?.mp hmem
  obtain ⟨op, hop, _⟩ := (pointAll_trims h).exists_old hop'
  rcases (pointAll_getElem? h).2 i op hop with
    ⟨hnone, hsame⟩ | ⟨old, landing, hold, hlanding, hnew⟩
  · rw [hop'] at hsame
    cases hsame
    rw [hnone] at htarget
    cases htarget
  · rw [hop'] at hnew
    cases hnew
    rw [target?_redirect hold] at htarget
    cases htarget
    exact ⟨old, landing, hlanding, rfl⟩

/-- Where no markers are merged, a landing has the name that leads to it. -/
theorem landing_name (hmerged : mergeMarkers none 1 body.tail = body.tail) {name : String}
    {landing : Landing} (h : landingOf? name none 1 body.tail = some landing) :
    landing.name = name := by
  obtain ⟨n, op, hop, hinstr, heq⟩ := landingOf?_eq_some h
  cases hrun : runBefore none 1 body.tail n with
  | none =>
      rw [heq, hrun]
      rfl
  | some first =>
      have hgone := mergeMarkers_getElem? body.tail none 1 n
      rw [hmerged, hop, Option.map_some, hrun, hinstr] at hgone
      rw [Option.some.inj hgone] at hinstr
      cases hinstr

/-- **After a round that takes nothing out a body is settled.**  No markers were merged, so that
names still lead to the same markers, and threading has sent every jump to where it stays. -/
theorem settled_of_lossless (h : round label body = .ok out) (hlossless : Lossless body out) :
    Settled out := by
  obtain ⟨pointed, rfl, hround⟩ := exists_rerouted h hlossless
  have hresolve : resolve label body = .ok pointed := by
    rw [resolve, pastEntry_eq_self.mpr (.inr hround.merged)]
    exact hround.resolved
  have hresolved := resolved_of_resolve hresolve
  have hrefines := refines_threadAll hresolved
  have hthread := skeleton_of_trims (threadAll_trims pointed)
  have hskeleton := hthread.trans (skeleton_of_trims (pointAll_trims hround.resolved))
  have htail := skeleton_tail hskeleton
  refine ⟨mergeMarkers_eq_self htail none 1 hround.merged, fun target haims => ?_,
    stripAfter_eq_self isReturn_retarget hthread false hround.returns, hround.jumps,
    fun target haims => stable_threadAll hresolved haims, fun index name hmarks => ?_,
    fun i target hjump => ?_⟩
  · obtain ⟨old, landing, hlanding, rfl⟩ :=
      exists_landing hround.resolved (hrefines.aims target haims)
    refine ⟨landing, ?_, rfl⟩
    rw [landingOf?_congr _ htail, landing_name hround.merged hlanding]
    exact hlanding
  · rw [← hround.used] at hmarks
    exact exists_target_of_marks hmarks
  · have hmem : i ∈ List.range (threadAll pointed).length := by
      rw [List.mem_range, ← length_codeOf]
      exact (List.getElem?_eq_some_iff.mp hjump).1
    obtain ⟨index, hindex, _⟩ := hrefines.resolved target
      (aims_iff.mpr ⟨_, List.mem_of_getElem? hjump, rfl⟩)
    exact nextLive_ne_of_dropNoopAt (hround.noops i hmem) hjump (by rw [hindex]; rfl)

/-- **A round leaves alone what is settled**, and nothing else. A round that changes nothing takes
nothing out either, so that `settled_of_lossless` applies to it. -/
theorem round_eq_self_iff : round label body = .ok body ↔ Settled body :=
  ⟨fun h => settled_of_lossless h fun _ => id, fun h => h.round label⟩

end Settled

section Rounds

variable {body out : List Op} {label : String} {n : Nat}
  {outcome : Except (Located CompileError) (List Op)}

/-- Where something is left. -/
def liveIndices (body : List Op) : Finset Nat :=
  (Finset.range body.length).filter fun i => (codeOf body)[i]? ≠ some .removed

theorem card_liveIndices_le (body : List Op) : (liveIndices body).card ≤ body.length := by
  have hle := Finset.card_filter_le (Finset.range body.length)
    fun i => (codeOf body)[i]? ≠ some .removed
  rw [Finset.card_range] at hle
  exact hle

/-- **What takes something out leaves less.** -/
theorem card_liveIndices_lt {may : Instruction → Bool} (h : Trims may body out)
    (hloss : ¬Lossless body out) : (liveIndices out).card < (liveIndices body).card := by
  obtain ⟨i, hgone, hlive⟩ : ∃ i : Nat, (codeOf out)[i]? = some .removed ∧
      (codeOf body)[i]? ≠ some .removed := by
    simpa only [Lossless, not_forall, exists_prop] using hloss
  refine Finset.card_lt_card (Finset.ssubset_iff_of_subset ?_ |>.mpr ⟨i, ?_, ?_⟩)
  · intro k hk
    obtain ⟨hlt, hleft⟩ := Finset.mem_filter.mp hk
    rw [Finset.mem_range, h.length_eq] at hlt
    exact Finset.mem_filter.mpr
      ⟨Finset.mem_range.mpr hlt, fun hremoved => hleft (h.removed hremoved)⟩
  · have hlt := (List.getElem?_eq_some_iff.mp hgone).1
    rw [length_codeOf, h.length_eq] at hlt
    exact Finset.mem_filter.mpr ⟨Finset.mem_range.mpr hlt, hlive⟩
  · exact fun hmem => (Finset.mem_filter.mp hmem).2 hgone

/-- Whether operands stand in a body depends on its instructions. -/
theorem Closed.of_codeOf_eq (h : Closed body) (hcode : codeOf out = codeOf body) : Closed out := by
  intro op hop r hr
  obtain ⟨old, hold, heq⟩ := List.mem_map.mp
    (hcode ▸ List.mem_map_of_mem hop : op.instruction ∈ codeOf body)
  rw [← length_codeOf, hcode, length_codeOf]
  exact h old hold r (heq ▸ hr)

/-- A number of rounds, of which the last one changes nothing or fails. It is what the
simplification would do without fuel. -/
inductive Rounds (label : String) :
    Nat → List Op → Except (Located CompileError) (List Op) → Prop
  | fails {body : List Op} {error : Located CompileError} :
      round label body = .error error → Rounds label 1 body (.error error)
  | done {body : List Op} : round label body = .ok body → Rounds label 1 body (.ok body)
  | again {n : Nat} {body next : List Op} {outcome : Except (Located CompileError) (List Op)} :
      round label body = .ok next → next ≠ body → Rounds label n next outcome →
      Rounds label (n + 1) body outcome

/-- With enough fuel the rounds are carried out. -/
theorem Rounds.settle_eq (h : Rounds label n body outcome) {fuel : Nat} (hfuel : n ≤ fuel) :
    settle label fuel body = outcome := by
  induction h generalizing fuel with
  | fails hround =>
      obtain ⟨fuel, rfl⟩ := Nat.exists_eq_add_of_le' hfuel
      rw [settle, hround]
      rfl
  | done hround =>
      obtain ⟨fuel, rfl⟩ := Nat.exists_eq_add_of_le' hfuel
      rw [settle_succ hround, if_pos rfl]
  | again hround hne _ ih =>
      obtain ⟨fuel, rfl⟩ := Nat.exists_eq_add_of_le' (Nat.le_of_add_left_le hfuel)
      rw [settle_succ hround, if_neg hne]
      exact ih (by omega)

/-- What rounds leave is settled. -/
theorem Rounds.settled (h : Rounds label n body outcome) (hout : outcome = .ok out) :
    Settled out := by
  induction h with
  | fails => cases hout
  | done hround =>
      cases hout
      exact round_eq_self_iff.mp hround
  | again _ _ _ ih => exact ih hout

/-- **Rounds come to an end.**  As long as they take something out, less and less is left; after
the first one that does not there is at most one more. -/
theorem exists_rounds (label : String) (body : List Op) :
    ∃ n outcome, n ≤ (liveIndices body).card + 2 ∧ Rounds label n body outcome := by
  induction hcard : (liveIndices body).card using Nat.strong_induction_on generalizing body with
  | _ card ih =>
      cases hround : round label body with
      | error error => exact ⟨1, _, by omega, .fails hround⟩
      | ok next =>
          by_cases hsame : next = body
          · subst hsame
            exact ⟨1, _, by omega, .done hround⟩
          by_cases hlossless : Lossless body next
          · have hdone := (settled_of_lossless hround hlossless).round label
            exact ⟨2, _, by omega, .again hround hsame (.done hdone)⟩
          · have hless := card_liveIndices_lt (round_trims hround) hlossless
            obtain ⟨n, outcome, hle, hrounds⟩ := ih _ (hcard ▸ hless) next rfl
            exact ⟨n + 1, outcome, by omega, .again hround hsame hrounds⟩

/-- **Simplification settles.**  Whatever the instructions and markers of a function and wherever
its jumps go, if its operands are indices of the body, then after no more rounds than there are ops,
and two, there is a round that changes nothing or fails, and the outcome is that of simplification.
If it does not fail, simplifying the function again succeeds and changes nothing. -/
theorem simplification_settles (f : Function) (hclosed : Closed f.body) :
    (∃ n outcome, n ≤ f.body.length + 2 ∧ Rounds f.label n f.body outcome ∧
      f.simplify = (orFail outcome).map fun body => { f with body := withLastUses body }) ∧
    ∀ g, f.simplify = .ok g → g.simplify = .ok g := by
  obtain ⟨n, outcome, hle, hrounds⟩ := exists_rounds f.label f.body
  have hfew := card_liveIndices_le f.body
  have hsettle := hrounds.settle_eq (show n ≤ roundLimit f.body by unfold roundLimit; omega)
  refine ⟨⟨n, outcome, by omega, hrounds, ?_⟩, fun g hg => ?_⟩
  · cases outcome with
    | error error =>
        unfold Function.simplify
        rw [hsettle]
        rfl
    | ok body => exact simplify_of_settle hsettle ((settle_trims hsettle).closed hclosed)
  · obtain ⟨body, hbody, hclosed', rfl⟩ := simplify_eq_ok hg
    have hsettled := (hrounds.settled (hsettle.symm.trans hbody)).of_codeOf_eq
      (codeOf_withLastUses body)
    have hagain := (Rounds.done (hsettled.round f.label)).settle_eq
      (show 1 ≤ roundLimit (withLastUses body) by unfold roundLimit; omega)
    have hg' := simplify_of_settle (f := { f with body := withLastUses body }) hagain
      (hclosed'.of_codeOf_eq (codeOf_withLastUses body))
    rw [hg']
    show Except.ok { f with body := withLastUses (withLastUses body) } = _
    rw [withLastUses_withLastUses]

/-- A branch into two jumps that go round in a ring, with a marker too many in front of it. -/
def circling : Function where
  label := "f"
  body := opsAt none [
    .marker "f",
    .nop,
    .branch true 1 { marker := "in" },
    .ret none,
    .marker "twice",
    .marker "in",
    .jump { marker := "back" },
    .marker "forth",
    .jump { marker := "back" },
    .marker "back",
    .jump { marker := "forth" }]

/-- Simplifying a function whose jumps go round in a ring comes to an end. -/
theorem simplification_settles_circling : Closed circling.body ∧
    (∃ n outcome, n ≤ 13 ∧ Rounds "f" n circling.body outcome) ∧
    ∃ g, circling.simplify = .ok g ∧ g.simplify = .ok g := by
  have hclosed : Closed circling.body := by decide
  have hpointed : Pointed circling.body := by decide
  have hdistinct : Distinct circling.body := by decide
  obtain ⟨⟨n, outcome, hle, hrounds, _⟩, hagain⟩ := simplification_settles circling hclosed
  obtain ⟨g, hg⟩ := exists_simplify hpointed hdistinct.headsApart hclosed
  exact ⟨hclosed, ⟨n, outcome, hle, hrounds⟩, g, hg, hagain g hg⟩

end Rounds

end Stackless.Flat
