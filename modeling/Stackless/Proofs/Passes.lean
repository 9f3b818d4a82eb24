import Stackless.Flat.Simplify
import Stackless.Proofs.FlatShape

/-!
# What simplification does to an op

No step of a simplification moves an op.  At every index it leaves the op as it
was, or sends a jump elsewhere, or takes the op out.

* `Trims` — two bodies in which every op is kept, redirected or taken out, where
  only certain instructions may be taken out;
* `settle_trims` — simplification trims a body;
* `Passing` — every parameter is followed by the next one or by its call, which
  simplification keeps (`keptBySteps_passing`): no stretch of dead code starts
  behind a parameter.

For each step there is a lemma that says op by op what it does; the later proofs
use these.
-/

namespace Stackless.Flat

/-- What stands at an index after the op at one index was replaced. -/
theorem getElem?_modify_eq (body : List Op) (index : Nat) (f : Op → Op) (i : Nat) :
    (body.modify index f)[i]? = if index = i then body[i]?.map f else body[i]? := by
  rw [List.getElem?_modify]
  split
  · rfl
  · cases body[i]? <;> rfl

/-- The same op, going elsewhere if it goes anywhere. -/
def Op.redirect (target : Target) (op : Op) : Op :=
  { op with instruction := op.instruction.retarget target }

namespace Op

/-- An op can be redirected to where it goes already. -/
theorem exists_redirect_eq (op : Op) : ∃ target, op = op.redirect target := by
  obtain ⟨instruction, offset, lastUse, position⟩ := op
  cases instruction with
  | jump target => exact ⟨target, rfl⟩
  | branch expected condition target => exact ⟨target, rfl⟩
  | _ => exact ⟨default, rfl⟩

@[simp]
theorem redirect_redirect (op : Op) (target target' : Target) :
    (op.redirect target).redirect target' = op.redirect target' := by
  obtain ⟨instruction, offset, lastUse, position⟩ := op
  cases instruction <;> rfl

/-- What is redirected and taken out is taken out. -/
@[simp]
theorem remove_redirect (op : Op) (target : Target) : (op.redirect target).remove = op.remove :=
  rfl

@[simp]
theorem redirect_remove (op : Op) (target : Target) : op.remove.redirect target = op.remove :=
  rfl

@[simp]
theorem remove_remove (op : Op) : op.remove.remove = op.remove :=
  rfl

@[simp]
theorem operands_redirect (op : Op) (target : Target) :
    (op.redirect target).instruction.operands = op.instruction.operands := by
  obtain ⟨instruction, offset, lastUse, position⟩ := op
  cases instruction <;> rfl

end Op

section Kinds

variable (instruction : Instruction) (target : Target)

theorem isRemoved_retarget :
    (instruction.retarget target).isRemoved = instruction.isRemoved := by
  cases instruction <;> rfl

theorem isMarker_retarget : (instruction.retarget target).isMarker = instruction.isMarker := by
  cases instruction <;> rfl

theorem isJump_retarget : (instruction.retarget target).isJump = instruction.isJump := by
  cases instruction <;> rfl

theorem isReturn_retarget : (instruction.retarget target).isReturn = instruction.isReturn := by
  cases instruction <;> rfl

end Kinds

/-- Whether an instruction only says where to go on. -/
def Instruction.isLink (instruction : Instruction) : Bool :=
  instruction.isMarker || instruction.isJump

/-- Redirecting keeps what only says where to go on. -/
theorem isLink_redirect (op : Op) (target : Target) :
    (op.redirect target).instruction.isLink = op.instruction.isLink := by
  rw [Op.redirect, Instruction.isLink, Instruction.isLink, isMarker_retarget, isJump_retarget]

theorem isMarker_redirect (op : Op) (target : Target) :
    (op.redirect target).instruction.isMarker = op.instruction.isMarker :=
  isMarker_retarget op.instruction target

/-- An op that was redirected or, if that is allowed, taken out. -/
def Op.Trimmed (may : Instruction → Bool) (op op' : Op) : Prop :=
  (may op.instruction = true ∧ op' = op.remove) ∨ ∃ target, op' = op.redirect target

namespace Op.Trimmed

variable {may : Instruction → Bool} {op op' op'' : Op}

theorem refl (op : Op) : Trimmed may op op :=
  .inr op.exists_redirect_eq

/-- Trimming twice is trimming. -/
theorem trans (hmay : ∀ op target, may (Op.redirect target op).instruction = may op.instruction)
    (h : Trimmed may op op') (h' : Trimmed may op' op'') : Trimmed may op op'' := by
  rcases h with ⟨hm, rfl⟩ | ⟨target, rfl⟩
  · rcases h' with ⟨_, rfl⟩ | ⟨target, rfl⟩
    · exact .inl ⟨hm, rfl⟩
    · exact .inl ⟨hm, rfl⟩
  · rcases h' with ⟨hm, rfl⟩ | ⟨target', rfl⟩
    · rw [hmay] at hm
      exact .inl ⟨hm, rfl⟩
    · exact .inr ⟨target', op.redirect_redirect target target'⟩

/-- What may be taken out under a stricter rule may be taken out. -/
theorem mono {more : Instruction → Bool} (hmore : ∀ i, may i = true → more i = true)
    (h : Trimmed may op op') : Trimmed more op op' :=
  h.imp_left fun ⟨hm, heq⟩ => ⟨hmore _ hm, heq⟩

/-- An op that was not taken out is the old one but for its target. -/
theorem eq_redirect (h : Trimmed may op op') (hlive : op'.instruction ≠ .removed) :
    ∃ target, op' = op.redirect target := by
  rcases h with ⟨_, rfl⟩ | h
  · exact absurd rfl hlive
  · exact h

end Op.Trimmed

/-- Two bodies of one length, in which every op was trimmed: it is redirected, which may change
nothing, or taken out where `may` allows that. -/
structure Trims (may : Instruction → Bool) (body body' : List Op) : Prop where
  length_eq : body'.length = body.length
  trimmed : ∀ (i : Nat) op op', body[i]? = some op → body'[i]? = some op' → Op.Trimmed may op op'

namespace Trims

variable {may : Instruction → Bool} {body body' body'' : List Op}

theorem refl (body : List Op) : Trims may body body := by
  refine ⟨rfl, fun i op op' h h' => ?_⟩
  rw [h] at h'
  cases h'
  exact .refl op

/-- Every op of the old body has its op in the new one. -/
theorem exists_new (h : Trims may body body') {i : Nat} {op : Op} (hop : body[i]? = some op) :
    ∃ op', body'[i]? = some op' ∧ Op.Trimmed may op op' := by
  have hlt : i < body'.length := by
    rw [h.length_eq]
    exact (List.getElem?_eq_some_iff.mp hop).1
  exact ⟨_, List.getElem?_eq_getElem hlt, h.trimmed i op _ hop (List.getElem?_eq_getElem hlt)⟩

/-- Every op of the new body comes from the op at its index. -/
theorem exists_old (h : Trims may body body') {i : Nat} {op' : Op} (hop' : body'[i]? = some op') :
    ∃ op, body[i]? = some op ∧ Op.Trimmed may op op' := by
  have hlt : i < body.length := by
    rw [← h.length_eq]
    exact (List.getElem?_eq_some_iff.mp hop').1
  exact ⟨_, List.getElem?_eq_getElem hlt, h.trimmed i _ op' (List.getElem?_eq_getElem hlt) hop'⟩

theorem trans (hmay : ∀ op target, may (Op.redirect target op).instruction = may op.instruction)
    (h : Trims may body body') (h' : Trims may body' body'') : Trims may body body'' := by
  refine ⟨h'.length_eq.trans h.length_eq, fun i op op'' hop hop'' => ?_⟩
  obtain ⟨op', hop', htrim⟩ := h.exists_new hop
  exact htrim.trans hmay (h'.trimmed i op' op'' hop' hop'')

/-- What may be taken out under a stricter rule may be taken out. -/
theorem mono {more : Instruction → Bool} (hmore : ∀ i, may i = true → more i = true)
    (h : Trims may body body') : Trims more body body' :=
  ⟨h.length_eq, fun i op op' hop hop' => (h.trimmed i op op' hop hop').mono hmore⟩

/-- Two steps that trim a body may together take out anything. -/
theorem any {may' : Instruction → Bool} (h : Trims may body body') (h' : Trims may' body' body'') :
    Trims (fun _ => true) body body'' :=
  (h.mono fun _ _ => rfl).trans (fun _ _ => rfl) (h'.mono fun _ _ => rfl)

/-- A body of which only markers were taken out lost only links. -/
theorem links (h : Trims Instruction.isMarker body body') : Trims Instruction.isLink body body' :=
  h.mono fun i hi => by simp [Instruction.isLink, hi]

theorem of_none (h : Trims (fun _ => false) body body') : Trims may body body' :=
  h.mono fun _ hmay => absurd hmay Bool.false_ne_true

/-- An instruction of the new body comes from the one at its index. -/
theorem code (h : Trims may body body') {k : Nat} {y : Instruction}
    (hy : (codeOf body')[k]? = some y) :
    ∃ x, (codeOf body)[k]? = some x ∧
      (may x = true ∧ y = .removed ∨ ∃ target, y = x.retarget target) := by
  obtain ⟨op', hop', rfl⟩ := exists_of_codeOf_getElem? hy
  obtain ⟨op, hop, htrim⟩ := h.exists_old hop'
  refine ⟨op.instruction, codeOf_getElem? hop, ?_⟩
  rcases htrim with ⟨hmay, rfl⟩ | ⟨target, rfl⟩
  · exact .inl ⟨hmay, rfl⟩
  · exact .inr ⟨target, rfl⟩

/-- A return of the new body was there before. -/
theorem ret (h : Trims may body body') {i : Nat} {value : Option Nat}
    (hret : (codeOf body')[i]? = some (.ret value)) : (codeOf body)[i]? = some (.ret value) := by
  obtain ⟨x, hx, ⟨_, heq⟩ | ⟨target, heq⟩⟩ := h.code hret
  · cases heq
  · cases x with
    | ret => exact hx.trans (congrArg some heq.symm)
    | _ => cases heq

/-- What may not be taken out is redirected at most. -/
theorem stays (h : Trims may body body') {k : Nat} {x : Instruction}
    (hx : (codeOf body)[k]? = some x) (hmay : may x = false) :
    ∃ target, (codeOf body')[k]? = some (x.retarget target) := by
  obtain ⟨op, hop, rfl⟩ := exists_of_codeOf_getElem? hx
  obtain ⟨op', hop', ⟨htrue, _⟩ | ⟨target, rfl⟩⟩ := h.exists_new hop
  · rw [hmay] at htrue
    cases htrue
  · exact ⟨target, codeOf_getElem? hop'⟩

/-- What was taken out stays so. -/
theorem removed (h : Trims may body body') {k : Nat}
    (hremoved : (codeOf body)[k]? = some .removed) : (codeOf body')[k]? = some .removed := by
  obtain ⟨op, hop, hinstr⟩ := exists_of_codeOf_getElem? hremoved
  obtain ⟨op', hop', ⟨_, rfl⟩ | ⟨target, rfl⟩⟩ := h.exists_new hop
  · exact codeOf_getElem? hop'
  · rw [codeOf_getElem? hop', Op.redirect, hinstr]
    rfl

/-- A body in which the op at one index was trimmed. -/
theorem at_index {f : Op → Op} {index : Nat}
    (h : ∀ op, body[index]? = some op → Op.Trimmed may op (f op)) :
    Trims may body (body.modify index f) := by
  refine ⟨List.length_modify .., fun i op op' hop hop' => ?_⟩
  rw [getElem?_modify_eq] at hop'
  split at hop'
  · rename_i hi
    subst hi
    rw [hop] at hop'
    cases hop'
    exact h op hop
  · rw [hop] at hop'
    cases hop'
    exact .refl op

/-- An op in front, trimmed too. -/
theorem cons {op op' : Op} (hop : Op.Trimmed may op op') (h : Trims may body body') :
    Trims may (op :: body) (op' :: body') := by
  refine ⟨by simp [h.length_eq], fun i x x' hx hx' => ?_⟩
  cases i with
  | zero =>
      cases hx
      cases hx'
      exact hop
  | succ i => exact h.trimmed i x x' hx hx'

/-- Steps from index to index that each trim a body trim it together. -/
theorem foldl (hmay : ∀ op target, may (Op.redirect target op).instruction = may op.instruction)
    {step : List Op → Nat → List Op} (hstep : ∀ body index, Trims may body (step body index)) :
    ∀ (indices : List Nat) (body : List Op), Trims may body (indices.foldl step body)
  | [], body => .refl body
  | index :: rest, body => (hstep body index).trans hmay (foldl hmay hstep rest (step body index))

end Trims

/-- The landing of the run in which the op `n` ops behind `index` stands. -/
def runBefore : Option Landing → (index : Nat) → List Op → (n : Nat) → Option Landing
  | run, _, _, 0 => run
  | run, _, [], _ + 1 => run
  | run, index, op :: rest, n + 1 => runBefore (landingAt run index op) (index + 1) rest n

/-- A marker is taken out if it continues a run; nothing else changes. -/
theorem mergeMarkers_getElem? :
    ∀ (ops : List Op) (run : Option Landing) (index n : Nat),
      (mergeMarkers run index ops)[n]? = ops[n]?.map fun op =>
        if op.instruction.isMarker && (runBefore run index ops n).isSome then op.remove else op
  | [], _, _, _ => rfl
  | op :: rest, run, index, 0 => rfl
  | op :: rest, run, index, n + 1 => by
    rw [mergeMarkers]
    exact mergeMarkers_getElem? rest (landingAt run index op) (index + 1) n

/-- A body of which the first op keeps out of a step. -/
theorem pastEntry_getElem? (step : List Op → List Op) (body : List Op) :
    (pastEntry step body)[0]? = body[0]? ∧
      ∀ n, (pastEntry step body)[n + 1]? = if body = [] then none else (step body.tail)[n]? := by
  cases body with
  | nil => exact ⟨rfl, fun n => rfl⟩
  | cons entry rest => exact ⟨rfl, fun n => by simp [pastEntry]⟩

/-- **Jumps that were pointed at their landings.**  Every op that goes somewhere goes
to the landing of its marker, and all others stay. -/
theorem pointAll_getElem? {label : String} {lookup : String → Option Landing} :
    ∀ {ops out : List Op} {index : Nat}, pointAll label lookup index ops = .ok out →
      out.length = ops.length ∧ ∀ (n : Nat) op, ops[n]? = some op →
        (op.instruction.target? = none ∧ out[n]? = some op) ∨
        ∃ target landing, op.instruction.target? = some target ∧
          lookup target.marker = some landing ∧
          out[n]? = some (op.redirect { marker := landing.name, index := some landing.index })
  | [], out, index, h => by
    cases h
    exact ⟨rfl, by simp⟩
  | op :: rest, out, index, h => by
    rw [pointAll] at h
    split at h
    · rename_i htarget
      obtain ⟨out', hrest, h⟩ := bind_eq_ok.mp h
      cases h
      obtain ⟨hlen, hall⟩ := pointAll_getElem? hrest
      refine ⟨by simp [hlen], fun n op' hop' => ?_⟩
      cases n with
      | zero =>
          cases hop'
          exact .inl ⟨htarget, rfl⟩
      | succ n => exact hall n op' hop'
    · rename_i target htarget
      split at h
      · cases h
      · rename_i landing hlanding
        obtain ⟨out', hrest, h⟩ := bind_eq_ok.mp h
        cases h
        obtain ⟨hlen, hall⟩ := pointAll_getElem? hrest
        refine ⟨by simp [hlen], fun n op' hop' => ?_⟩
        cases n with
        | zero =>
            cases hop'
            exact .inr ⟨target, landing, htarget, hlanding, rfl⟩
        | succ n => exact hall n op' hop'

/-- Whether an instruction stays in a stretch that is dead or not. -/
def survives (stops : Instruction → Bool) (dead : Bool) (instruction : Instruction) : Bool :=
  !dead || instruction.isRemoved || instruction.isMarker ||
    (instruction.isReturn && !stops instruction)

/-- Whether what follows an instruction is dead. -/
def deadAfter (stops : Instruction → Bool) (dead : Bool) (instruction : Instruction) : Bool :=
  if instruction.isRemoved then dead
  else if instruction.isMarker then false
  else if !dead then stops instruction
  else !(instruction.isReturn && !stops instruction)

/-- Whether the op `n` ops behind the first is dead. -/
def deadBefore (stops : Instruction → Bool) : (dead : Bool) → List Op → (n : Nat) → Bool
  | dead, _, 0 => dead
  | dead, [], _ + 1 => dead
  | dead, op :: rest, n + 1 => deadBefore stops (deadAfter stops dead op.instruction) rest n

/-- The first op stays or goes, and the stretch goes on behind it. -/
theorem stripAfter_cons (stops : Instruction → Bool) (dead : Bool) (op : Op) (rest : List Op) :
    stripAfter stops dead (op :: rest) =
      (if survives stops dead op.instruction then op else op.remove) ::
        stripAfter stops (deadAfter stops dead op.instruction) rest := by
  rw [stripAfter]
  by_cases hremoved : op.instruction.isRemoved
  · simp [survives, deadAfter, hremoved]
  · by_cases hmarker : op.instruction.isMarker
    · simp [survives, deadAfter, hremoved, hmarker]
    · cases dead with
      | false => simp [survives, deadAfter, hremoved, hmarker]
      | true =>
          by_cases hreturn : (op.instruction.isReturn && !stops op.instruction) = true
          · simp [survives, deadAfter, hremoved, hmarker, hreturn]
          · simp [survives, deadAfter, hremoved, hmarker, hreturn]

/-- **What is dead is taken out**, and nothing else changes. -/
theorem stripAfter_getElem? (stops : Instruction → Bool) :
    ∀ (ops : List Op) (dead : Bool) (n : Nat),
      (stripAfter stops dead ops)[n]? = ops[n]?.map fun op =>
        if survives stops (deadBefore stops dead ops n) op.instruction then op else op.remove
  | [], _, _ => rfl
  | op :: rest, dead, 0 => by
    rw [stripAfter_cons]
    rfl
  | op :: rest, dead, n + 1 => by
    rw [stripAfter_cons]
    exact stripAfter_getElem? stops rest (deadAfter stops dead op.instruction) n

/-- What follows an op is dead as the op says. -/
theorem deadBefore_succ (stops : Instruction → Bool) :
    ∀ {ops : List Op} (dead : Bool) {n : Nat} {op : Op}, ops[n]? = some op →
      deadBefore stops dead ops (n + 1) =
        deadAfter stops (deadBefore stops dead ops n) op.instruction
  | [], _, _, _, h => by cases h
  | op :: rest, dead, 0, op', h => by
    cases h
    simp only [deadBefore]
  | op :: rest, dead, n + 1, op', h => by
    have ih := deadBefore_succ stops (deadAfter stops dead op.instruction) (show rest[n]? = _ from h)
    exact ih

/-- A marker that nothing goes to is taken out; nothing else changes. -/
theorem dropMarkers_getElem? (used : List Nat) :
    ∀ (ops : List Op) (index n : Nat),
      (dropMarkers used index ops)[n]? = ops[n]?.map fun op =>
        if op.instruction.isMarker && !used.contains (index + n) then op.remove else op
  | [], _, _ => rfl
  | op :: rest, index, 0 => rfl
  | op :: rest, index, n + 1 => by
    rw [dropMarkers]
    have ih := dropMarkers_getElem? used rest (index + 1) n
    rw [show index + 1 + n = index + (n + 1) by omega] at ih
    exact ih

section Trimming

/-- A marker may be taken out on a condition. -/
theorem trimmed_ite_marker {op : Op} {condition : Bool} :
    Op.Trimmed Instruction.isMarker op
      (if op.instruction.isMarker && condition then op.remove else op) := by
  split
  · rename_i h
    rw [Bool.and_eq_true] at h
    exact .inl ⟨h.1, rfl⟩
  · exact .refl op

/-- A step that keeps out of the first op trims a body if it trims the others. -/
theorem pastEntry_trims {may : Instruction → Bool} {step : List Op → List Op}
    (h : ∀ ops, Trims may ops (step ops)) (body : List Op) : Trims may body (pastEntry step body) := by
  cases body with
  | nil => exact .refl []
  | cons entry rest => exact .cons (.refl entry) (h rest)

/-- Ops that are each replaced by a trimmed one are trimmed. -/
theorem trims_of_getElem? {may : Instruction → Bool} {body body' : List Op} {f : Nat → Op → Op}
    (h : ∀ n : Nat, body'[n]? = body[n]?.map (f n)) (hf : ∀ n op, Op.Trimmed may op (f n op)) :
    Trims may body body' := by
  constructor
  · have hnone : ∀ n : Nat, body'[n]? = none ↔ body[n]? = none := by
      intro n
      rw [h n, Option.map_eq_none_iff]
    apply Nat.le_antisymm
    · exact List.getElem?_eq_none_iff.mp ((hnone _).mpr (List.getElem?_eq_none (Nat.le_refl _)))
    · exact List.getElem?_eq_none_iff.mp ((hnone _).mp (List.getElem?_eq_none (Nat.le_refl _)))
  · intro n op op' hop hop'
    rw [h n, hop] at hop'
    cases hop'
    exact hf n op

theorem mergeMarkers_trims (run : Option Landing) (index : Nat) (ops : List Op) :
    Trims Instruction.isMarker ops (mergeMarkers run index ops) :=
  trims_of_getElem? (mergeMarkers_getElem? ops run index) fun _ _ => trimmed_ite_marker

/-- Pointing jumps takes nothing out. -/
theorem pointAll_trims {label : String} {lookup : String → Option Landing} {index : Nat}
    {ops out : List Op} (h : pointAll label lookup index ops = .ok out) :
    Trims (fun _ => false) ops out := by
  obtain ⟨hlen, hall⟩ := pointAll_getElem? h
  refine ⟨hlen, fun n op op' hop hop' => ?_⟩
  rcases hall n op hop with ⟨_, hout⟩ | ⟨_, _, _, _, hout⟩
  · rw [hout] at hop'
    cases hop'
    exact .refl op
  · rw [hout] at hop'
    cases hop'
    exact .inr ⟨_, rfl⟩

theorem resolve_trims {label : String} {body out : List Op} (h : resolve label body = .ok out) :
    Trims Instruction.isMarker body out :=
  (pastEntry_trims (mergeMarkers_trims none 1) body).trans isMarker_redirect
    (pointAll_trims h).of_none

theorem threadAt_trims (body : List Op) (index : Nat) :
    Trims (fun _ => false) body (threadAt body index) := by
  refine Trims.at_index fun op _ => ?_
  split
  · exact .refl op
  · exact .inr ⟨_, rfl⟩

theorem threadAll_trims (body : List Op) : Trims (fun _ => false) body (threadAll body) :=
  Trims.foldl (fun _ _ => rfl) threadAt_trims (List.range body.length) body

theorem removeUnusedMarkers_trims (body : List Op) :
    Trims Instruction.isMarker body (removeUnusedMarkers body) :=
  pastEntry_trims (fun ops => trims_of_getElem? (dropMarkers_getElem? _ ops 1)
    fun _ _ => trimmed_ite_marker) body

/-- Taking out jumps to the next instruction takes out jumps only. -/
theorem dropNoopAt_trims (body : List Op) (index : Nat) :
    Trims Instruction.isLink body (dropNoopAt body index) := by
  refine Trims.at_index fun op _ => ?_
  split
  · rename_i target hop
    split
    · exact .inl ⟨by rw [hop]; rfl, rfl⟩
    · exact .refl op
  · exact .refl op

theorem removeNoopJumps_trims (body : List Op) :
    Trims Instruction.isLink body (removeNoopJumps body) :=
  Trims.foldl isLink_redirect dropNoopAt_trims (List.range body.length) body

theorem stripAfter_trims (stops : Instruction → Bool) (dead : Bool) (body : List Op) :
    Trims (fun _ => true) body (stripAfter stops dead body) := by
  refine trims_of_getElem? (stripAfter_getElem? stops body dead) fun _ op => ?_
  split
  · exact .refl op
  · exact .inl ⟨rfl, rfl⟩

end Trimming

section LastUses

theorem withLastUses_getElem? (body : List Op) (i : Nat) :
    (withLastUses body)[i]? = body[i]?.map fun op => { op with lastUse := lastUseIn body i op } := by
  rw [withLastUses, List.getElem?_mapIdx]

/-- The ops of a body with last uses are those of the body. -/
theorem exists_of_withLastUses {body : List Op} {i : Nat} {op' : Op}
    (h : (withLastUses body)[i]? = some op') :
    ∃ op, body[i]? = some op ∧ op' = { op with lastUse := lastUseIn body i op } := by
  rw [withLastUses_getElem?] at h
  obtain ⟨op, hop, rfl⟩ := Option.map_eq_some_iff.mp h
  exact ⟨op, hop, rfl⟩

/-- Last uses change no instruction. -/
@[simp]
theorem codeOf_withLastUses (body : List Op) : codeOf (withLastUses body) = codeOf body := by
  apply List.ext_getElem?
  intro i
  rw [codeOf, codeOf, List.getElem?_map, List.getElem?_map, withLastUses_getElem?]
  cases body[i]? with
  | none => rfl
  | some op => rfl

/-- Who uses a value last depends on the instructions. -/
theorem lastUser_congr (r : Nat) : ∀ {body out : List Op}, codeOf out = codeOf body →
    ∀ start : Nat, lastUser r start out = lastUser r start body
  | [], [], _, _ => rfl
  | [], _ :: _, h, _ => by cases h
  | _ :: _, [], h, _ => by cases h
  | op :: _, op' :: _, h, start => by
    obtain ⟨hfirst, hrest⟩ := List.cons.inj h
    rw [lastUser, lastUser, lastUser_congr r hrest,
      show op'.instruction = op.instruction from hfirst]

/-- Finding the last uses a second time changes nothing. -/
theorem withLastUses_withLastUses (body : List Op) :
    withLastUses (withLastUses body) = withLastUses body := by
  have hlength : (withLastUses body).length = body.length := List.length_mapIdx
  apply List.ext_getElem?
  intro i
  rw [withLastUses_getElem?, withLastUses_getElem?, Option.map_map]
  congr 1
  funext op
  simp only [Function.comp, lastUseIn, hlength, lastUser_congr i (codeOf_withLastUses body)]

end LastUses

/-- What a round does, step by step. -/
theorem round_eq_ok {label : String} {body out : List Op} (h : round label body = .ok out) :
    ∃ resolved, resolve label body = .ok resolved ∧
      out = removeNoopJumps (stripAfter Instruction.isJump false
        (removeUnusedMarkers (threadAll (stripAfter Instruction.isReturn false resolved)))) := by
  obtain ⟨resolved, hresolve, h⟩ := bind_eq_ok.mp h
  cases h
  exact ⟨resolved, hresolve, rfl⟩

/-- What rounds keep, simplification keeps. -/
theorem settle_induction {label : String} {P : List Op → Prop}
    (hround : ∀ body out, P body → round label body = .ok out → P out) :
    ∀ {fuel : Nat} {body out : List Op}, P body → settle label fuel body = .ok out → P out
  | 0, body, out, hbody, h => by
    cases h
    exact hbody
  | fuel + 1, body, out, hbody, h => by
    rw [settle] at h
    obtain ⟨next, hnext, h⟩ := bind_eq_ok.mp h
    have hP := hround body next hbody hnext
    split at h
    · cases h
      exact hP
    · exact settle_induction hround hP h

/-- A property of bodies that trimming links keeps, and taking out dead code too. -/
structure KeptBySteps (P : List Op → Prop) : Prop where
  links : ∀ body out, P body → Trims Instruction.isLink body out → P out
  strip : ∀ stops body, (∀ i : Instruction, stops i = true → i.isJump = true ∨ i.isReturn = true) →
    P body → P (stripAfter stops false body)

/-- What every step keeps, a round keeps. -/
theorem KeptBySteps.round {P : List Op → Prop} (hP : KeptBySteps P) {label : String}
    {body out : List Op} (hbody : P body) (h : Flat.round label body = .ok out) : P out := by
  obtain ⟨resolved, hresolve, rfl⟩ := round_eq_ok h
  have h1 := hP.links _ _ hbody (resolve_trims hresolve).links
  have h2 := hP.strip Instruction.isReturn _ (fun _ => .inr) h1
  have h3 := hP.links _ _ h2 (threadAll_trims _).of_none
  have h4 := hP.links _ _ h3 (removeUnusedMarkers_trims _).links
  have h5 := hP.strip Instruction.isJump _ (fun _ => .inl) h4
  exact hP.links _ _ h5 (removeNoopJumps_trims _)

/-- **What every step keeps, simplification keeps.**  By induction on the fuel, and within a round
through its steps one after the other. -/
theorem KeptBySteps.settle {P : List Op → Prop} (hP : KeptBySteps P) {label : String} {fuel : Nat}
    {body out : List Op} (hbody : P body) (h : Flat.settle label fuel body = .ok out) : P out :=
  settle_induction (fun _ _ hbody hround => hP.round hbody hround) hbody h

theorem keptBySteps_trims (body : List Op) : KeptBySteps (Trims (fun _ => true) body) where
  links _ _ hmid htrims := hmid.any htrims
  strip stops mid _ hmid := hmid.any (stripAfter_trims stops false mid)

theorem round_trims {label : String} {body out : List Op} (h : round label body = .ok out) :
    Trims (fun _ => true) body out :=
  (keptBySteps_trims body).round (.refl body) h

/-- **Simplification trims a body.**  Whatever its rounds do, an op is still at its index with its
operands, unless it was taken out. -/
theorem settle_trims {label : String} {fuel : Nat} {body out : List Op}
    (h : settle label fuel body = .ok out) : Trims (fun _ => true) body out :=
  (keptBySteps_trims body).settle (.refl body) h

/-- Every parameter is followed by an instruction that serves the same call: the next parameter of
it, or the call itself. -/
def Passing (body : List Op) : Prop :=
  ∀ (i : Nat) op function name value, body[i]? = some op →
    op.instruction = .parameter function name value →
    ∃ next, body[i + 1]? = some next ∧ next.instruction.serves function = true

theorem instruction_redirect {op : Op} (h : op.instruction.target? = none) (target : Target) :
    (op.redirect target).instruction = op.instruction := by
  obtain ⟨instruction, offset, lastUse, position⟩ := op
  cases instruction with
  | jump | branch => cases h
  | _ => rfl

/-- What serves a call goes nowhere and is no link. -/
theorem target?_of_serves {instruction : Instruction} {function : String}
    (h : instruction.serves function = true) :
    instruction.target? = none ∧ instruction.isLink = false := by
  cases instruction with
  | parameter | call => exact ⟨rfl, rfl⟩
  | _ => cases h

/-- An op whose instruction stays as it is if it is no link and goes nowhere. -/
theorem Op.Trimmed.instruction_eq {op op' : Op} (h : Op.Trimmed Instruction.isLink op op')
    (htarget : op.instruction.target? = none) (hlink : op.instruction.isLink = false) :
    op'.instruction = op.instruction := by
  rcases h with ⟨hmay, _⟩ | ⟨target, rfl⟩
  · rw [hlink] at hmay
    cases hmay
  · exact instruction_redirect htarget target

/-- A live op that goes nowhere has the instruction that it had. -/
theorem Op.Trimmed.instruction_eq_of_live {may : Instruction → Bool} {op op' : Op}
    (h : Op.Trimmed may op op') (hlive : op'.instruction ≠ .removed)
    (htarget : op'.instruction.target? = none) : op'.instruction = op.instruction := by
  obtain ⟨target, rfl⟩ := h.eq_redirect hlive
  obtain ⟨instruction, offset, lastUse, position⟩ := op
  cases instruction with
  | jump | branch => cases htarget
  | _ => rfl

/-- **Simplification keeps a parameter together with its call.**  Neither is a jump, a marker or a
return, and dead code is taken out up to the next marker, so that both go or both stay. -/
theorem keptBySteps_passing : KeptBySteps Passing := by
  constructor
  · intro body out hbody htrims i op' function name value hop' hparam
    obtain ⟨op, hop, htrim⟩ := htrims.exists_old hop'
    have hsame := htrim.instruction_eq_of_live (by rw [hparam]; simp) (by rw [hparam]; rfl)
    obtain ⟨next, hnext, hserves⟩ := hbody i op function name value hop (hsame ▸ hparam)
    obtain ⟨next', hnext', htrim'⟩ := htrims.exists_new hnext
    obtain ⟨htarget, hlink⟩ := target?_of_serves hserves
    refine ⟨next', hnext', ?_⟩
    rw [htrim'.instruction_eq htarget hlink]
    exact hserves
  · intro stops body hstops hbody i op' function name value hop' hparam
    rw [stripAfter_getElem?] at hop'
    obtain ⟨op, hop, hop'⟩ := Option.map_eq_some_iff.mp hop'
    split at hop'
    · rename_i hsurvives
      subst hop'
      have halive : deadBefore stops false body i = false := by
        rw [hparam] at hsurvives
        simpa [survives, Instruction.isRemoved, Instruction.isMarker, Instruction.isReturn]
          using hsurvives
      have hplain : stops op.instruction = false := by
        cases hs : stops op.instruction with
        | false => rfl
        | true =>
            rcases hstops _ hs with h | h
            · rw [hparam] at h
              cases h
            · rw [hparam] at h
              cases h
      have hnextAlive : deadBefore stops false body (i + 1) = false := by
        rw [deadBefore_succ stops false hop, halive]
        rw [hparam] at hplain ⊢
        exact hplain
      obtain ⟨next, hnext, hserves⟩ := hbody i op function name value hop hparam
      refine ⟨next, ?_, hserves⟩
      rw [stripAfter_getElem?, hnext, hnextAlive]
      rfl
    · subst hop'
      cases hparam

section DeadStretches

variable {stops : Instruction → Bool} {body : List Op}

/-- What is dead stays dead up to the next marker or return. -/
theorem deadBefore_of_plain {a n : Nat} (hle : a ≤ n)
    (hdead : deadBefore stops false body a = true)
    (hplain : ∀ k, a ≤ k → k < n → ∃ x, (codeOf body)[k]? = some x ∧ x.isMarker = false ∧
      x.isReturn = false) : deadBefore stops false body n = true := by
  induction hle with
  | refl => exact hdead
  | @step n hle ih =>
      obtain ⟨x, hx, hmarker, hreturn⟩ := hplain n hle (by omega)
      obtain ⟨op, hop, rfl⟩ := exists_of_codeOf_getElem? hx
      have hbefore := ih fun k hak hkn => hplain k hak (by omega)
      rw [deadBefore_succ stops false hop, hbefore]
      simp [deadAfter, hmarker, hreturn]

/-- What is not dead stays. -/
theorem kept_or_dead (stops : Instruction → Bool) {k : Nat} {x : Instruction}
    (hx : (codeOf body)[k]? = some x) :
    (codeOf (stripAfter stops false body))[k]? = some x ∨
      deadBefore stops false body k = true := by
  obtain ⟨op, hop, rfl⟩ := exists_of_codeOf_getElem? hx
  have hout := stripAfter_getElem? stops body false k
  rw [hop, Option.map_some] at hout
  cases hbefore : deadBefore stops false body k with
  | true => exact .inr rfl
  | false =>
      rw [hbefore] at hout
      exact .inl (codeOf_getElem? hout)

/-- A dead stretch starts behind what stops. -/
theorem stops_of_deadAfter {x : Instruction} (h : deadAfter stops false x = true) :
    stops x = true := by
  unfold deadAfter at h
  split at h
  · cases h
  · split at h
    · cases h
    · simpa only [Bool.not_false, if_true] using h

/-- What goes on a dead stretch is taken out. -/
theorem removed_of_deadAfter {op : Op} (h : deadAfter stops true op.instruction = true) :
    (if survives stops true op.instruction then op else op.remove).instruction = .removed := by
  unfold deadAfter at h
  split at h
  · rename_i hremoved
    have hinstr : op.instruction = .removed := by
      cases hop : op.instruction with
      | removed => rfl
      | _ =>
          rw [hop] at hremoved
          cases hremoved
    split
    · exact hinstr
    · rfl
  · rename_i hremoved
    split at h
    · cases h
    · rename_i hmarker
      have hreturn : (op.instruction.isReturn && !stops op.instruction) = false := by
        simpa only [Bool.not_true, Bool.false_eq_true, if_false, Bool.not_eq_true'] using h
      have hlost : survives stops true op.instruction = false := by
        simp only [survives, hremoved, hmarker, hreturn]
        rfl
      rw [hlost]
      rfl

/-- **A dead stretch starts behind an op that stops**, which stays, and of the stretch nothing
is left. -/
theorem exists_stop_of_dead {n : Nat} (hle : n ≤ body.length)
    (hdead : deadBefore stops false body n = true) :
    ∃ j x, j < n ∧ (codeOf (stripAfter stops false body))[j]? = some x ∧ stops x = true ∧
      ∀ k, j < k → k < n → (codeOf (stripAfter stops false body))[k]? = some .removed := by
  induction n with
  | zero =>
      rw [deadBefore] at hdead
      cases hdead
  | succ n ih =>
      obtain ⟨op, hop⟩ : ∃ op, body[n]? = some op := ⟨_, List.getElem?_eq_getElem hle⟩
      have hout := stripAfter_getElem? stops body false n
      rw [hop, Option.map_some] at hout
      rw [deadBefore_succ stops false hop] at hdead
      cases hbefore : deadBefore stops false body n with
      | false =>
          rw [hbefore] at hdead hout
          exact ⟨n, op.instruction, Nat.lt_succ_self n, codeOf_getElem? hout,
            stops_of_deadAfter hdead, by omega⟩
      | true =>
          rw [hbefore] at hdead hout
          obtain ⟨j, x, hj, hx, hstops, hgone⟩ := ih (by omega) hbefore
          refine ⟨j, x, by omega, hx, hstops, fun k hjk hkn => ?_⟩
          rcases Nat.lt_or_ge k n with hlt | hge
          · exact hgone k hjk hlt
          · obtain rfl : k = n := by omega
            rw [codeOf_getElem? hout, removed_of_deadAfter hdead]

end DeadStretches

end Stackless.Flat
