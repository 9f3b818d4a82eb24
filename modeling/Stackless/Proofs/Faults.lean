import Stackless.Storage.Allocate
import Stackless.Proofs.SlotRange

/-!
# Which failures a phase can report

`FailsOnly P x` says that the phase `x`, if it fails, fails in a way that `P`
allows.  It goes through chains, lists and folds, so that what a phase can report
is read off its steps.

A phase that hands out storage or stacks windows **refuses** a program, with an error
about the program itself or by a trap; `refusal_placeVariables`, `refusal_stack` and the
other lemmas say so one phase at a time.  Faults of the instructions come up while a
function gets its frame; none of them is the fault of an overlapping handler window, and
none is a trap if operands are indices of the body (`failsOnly_frames`).

Where windows are stacked and slots become addresses, a phase traps only if a number leaves
the range of a word; `failsOnly_stack`, `failsOnly_highWater` and `failsOnly_anchorAll` say
which.
-/

namespace Stackless

/-- The phase fails, if at all, with a failure that `P` allows. -/
def FailsOnly (P : Failure → Prop) {α : Type} (x : Except Failure α) : Prop :=
  ∀ e, x = .error e → P e

namespace FailsOnly

variable {P : Failure → Prop} {α β : Type}

theorem ok (a : α) : FailsOnly P (.ok a) := by
  intro e h
  cases h

theorem error {e : Failure} (h : P e) : FailsOnly P (.error e : Except Failure α) := by
  intro e' he
  cases he
  exact h

theorem mono {Q : Failure → Prop} {x : Except Failure α} (hx : FailsOnly P x)
    (h : ∀ e, P e → Q e) : FailsOnly Q x :=
  fun e he => h e (hx e he)

/-- A chain fails as its steps do, each after what came before it. -/
theorem chain {x : Except Failure α} {f : α → Except Failure β} (hx : FailsOnly P x)
    (hf : ∀ a, x = .ok a → FailsOnly P (f a)) : FailsOnly P (x >>= f) := by
  intro e he
  rcases bind_eq_error.mp he with he | ⟨a, ha, he⟩
  · exact hx e he
  · exact hf a ha e he

theorem bind {x : Except Failure α} {f : α → Except Failure β} (hx : FailsOnly P x)
    (hf : ∀ a, FailsOnly P (f a)) : FailsOnly P (x >>= f) :=
  hx.chain fun a _ => hf a

/-- A chain whose first step succeeded fails as the rest does. -/
theorem after {x : Except Failure α} {f : α → Except Failure β} {a : α} (hx : x = .ok a)
    (hf : FailsOnly P (f a)) : FailsOnly P (x >>= f) := by
  rw [hx]
  exact hf

/-- A fold fails as its step does where something holds that the step keeps. -/
theorem foldlM_of {f : β → α → Except Failure β} (Inv : β → Prop) :
    ∀ {xs : List α} {b : β}, (∀ b, ∀ a ∈ xs, Inv b → FailsOnly P (f b a)) →
      (∀ b a b', Inv b → f b a = .ok b' → Inv b') → Inv b → FailsOnly P (xs.foldlM f b)
  | [], b, _, _, _ => ok b
  | x :: xs, b, hf, hinv, hb => by
    rw [List.foldlM_cons]
    refine (hf b x List.mem_cons_self hb).chain fun b' hb' => ?_
    exact foldlM_of Inv (fun b a ha => hf b a (List.mem_cons_of_mem _ ha)) hinv (hinv b x b' hb hb')

/-- A fold fails as its step does at the elements. -/
theorem foldlM {f : β → α → Except Failure β} {xs : List α} {b : β}
    (hf : ∀ b, ∀ a ∈ xs, FailsOnly P (f b a)) : FailsOnly P (xs.foldlM f b) :=
  foldlM_of (fun _ => True) (fun b a ha _ => hf b a ha) (fun _ _ _ _ _ => trivial) trivial

/-- A step over a list fails as the step does at its elements. -/
theorem mapM {f : α → Except Failure β} :
    ∀ {xs : List α}, (∀ a ∈ xs, FailsOnly P (f a)) → FailsOnly P (xs.mapM f)
  | [], _ => ok []
  | x :: xs, hf => by
    rw [List.mapM_cons]
    exact (hf x List.mem_cons_self).bind fun y =>
      (mapM fun a ha => hf a (List.mem_cons_of_mem _ ha)).bind fun ys => ok (y :: ys)

/-- A step over a table fails as the step does at its values. -/
theorem tableMapM {f : α → Except Failure β} {t : Table α}
    (hf : ∀ name a, t.find? name = some a → FailsOnly P (f a)) : FailsOnly P (t.mapM f) := by
  refine foldlM fun done e he => ?_
  exact (hf e.1 e.2 (Table.find?_eq_some.mpr he)).bind fun value => ok (done.insert e.1 value)

/-- An address computation traps where it leaves the range of a word. -/
theorem checkWord_of {n : Nat} (hP : wordLimit ≤ n → P .trap) : FailsOnly P (checkWord n) := by
  unfold Stackless.checkWord
  split
  · exact ok n
  · exact error (hP (by omega))

theorem checkWord (hP : P .trap) (n : Nat) : FailsOnly P (checkWord n) :=
  checkWord_of fun _ => hP

theorem checkedSub_of {a b : Nat} (hP : a < b → P .trap) : FailsOnly P (checkedSub a b) := by
  unfold Stackless.checkedSub
  split
  · exact ok _
  · exact error (hP (by omega))

/-- A value that must be there can only trap. -/
theorem orTrap (hP : P .trap) (x : Option α) : FailsOnly P (orTrap x) := by
  cases x with
  | none => exact error hP
  | some a => exact ok a

end FailsOnly

/-- The failure is a trap, and there is a reason for it. With different reasons the same lemmas give
both directions of a criterion for traps. -/
def TrapFor (reason : Prop) (e : Failure) : Prop :=
  e = .trap ∧ reason

/-- The failure is not the fault of a handler window that reaches into the main
line's storage. -/
def NoOverlap (e : Failure) : Prop :=
  ∀ position label index, e ≠ .error ⟨position, .internal label index .windowOverlap⟩

/-- The failure is no fault of an instruction. -/
def Refusal (e : Failure) : Prop :=
  ∀ error, e = .error error → error.value.isInternal = false

theorem refusal_trap : Refusal .trap := by
  intro error h
  cases h

theorem refusal_nowhere {error : CompileError} (h : error.isInternal = false) :
    Refusal (.error (.nowhere error)) := by
  intro located heq
  cases heq
  exact h

/-- A refusal is not the fault of an overlapping window. -/
theorem Refusal.noOverlap {e : Failure} (h : Refusal e) : NoOverlap e := by
  intro position label index heq
  cases h _ heq

/-- A trap is not the fault of an overlapping window. -/
theorem noOverlap_trap : NoOverlap .trap :=
  refusal_trap.noOverlap

/-- Errors about the program are allowed, and faults of instructions other than an
overlap. -/
structure Admits (P : Failure → Prop) : Prop where
  refusal : ∀ {error : CompileError}, error.isInternal = false → P (.error (.nowhere error))
  fault : ∀ {label : String} {body : List Flat.Op} {index : Nat} {fault : Fault},
    fault ≠ .windowOverlap → P (Storage.faultAt label body index fault)

/-- What is admitted is not the fault of an overlapping window. -/
theorem admits_noOverlap : Admits NoOverlap where
  refusal := fun h => (refusal_nowhere h).noOverlap
  fault := by
    intro label body index fault h position label' index' heq
    cases heq
    exact h rfl

namespace Storage

open Flat (Program Function Op Instruction Var Offset)
open Calls (CallTree)

/-- Constants are placed or do not fit. -/
theorem refusal_placeConstants (model : Model.Program) :
    FailsOnly Refusal (placeConstants model) := by
  refine .bind (.foldlM fun c g _ => ?_) fun constants => ?_
  · exact (FailsOnly.checkWord refusal_trap _).bind fun _ => .ok _
  · dsimp only
    split
    · exact .ok _
    · exact .error (refusal_nowhere rfl)

/-- A global is placed or is of no kind that can be. -/
theorem refusal_place (c : Cursors) (label : String) (symbol : Model.Symbol) :
    FailsOnly Refusal (c.place label symbol) := by
  unfold Cursors.place
  split
  · exact .error (refusal_nowhere rfl)
  · split
    · exact .ok _
    · exact .ok _
    · exact .ok _
    · exact .error (refusal_nowhere rfl)
    · exact (FailsOnly.checkWord refusal_trap _).bind fun _ => .ok _
    · exact (FailsOnly.checkWord refusal_trap _).bind fun _ => .ok _
    · exact (FailsOnly.checkWord refusal_trap _).bind fun _ => .ok _

/-- Variables are placed or do not fit. -/
theorem refusal_placeVariables (model : Model.Program) (forest : Calls.Forest)
    (constants : Table Nat) : FailsOnly Refusal (placeVariables model forest constants) := by
  refine .bind (.foldlM fun c g _ => ?_) fun cursors => ?_
  · exact refusal_place c g.1 g.2
  dsimp only
  split
  · exact .ok _
  · exact .error (refusal_nowhere rfl)

section Frames

variable {P : Failure → Prop} (hP : Admits P)

/-- Locals are pinned or are of no kind that can be. -/
theorem failsOnly_pinLocals (hP : Admits P) :
    ∀ (entries : List (String × Model.Symbol)) (pools : Pools) (locals : Table Offset),
      FailsOnly P (pinLocals pools locals entries)
  | [], _, _ => .ok _
  | (name, symbol) :: rest, pools, locals => by
    rw [pinLocals]
    split
    · exact failsOnly_pinLocals hP rest _ _
    · exact failsOnly_pinLocals hP rest _ _
    · exact failsOnly_pinLocals hP rest _ _
    · exact .error (hP.refusal rfl)

theorem failsOnly_instructionAt {body : List Op} {index : Nat}
    (h : P .trap ∨ index < body.length) : FailsOnly P (instructionAt body index) := by
  rcases h with htrap | hlt
  · exact (FailsOnly.orTrap htrap _).bind fun _ => .ok _
  · rw [instructionAt, List.getElem?_eq_getElem hlt]
    exact .ok _

/-- Indices are kept or one is out of range. -/
theorem failsOnly_keep {body : List Op} (test : Instruction → Bool) :
    ∀ {refs : List Nat}, (∀ r ∈ refs, P .trap ∨ r < body.length) → FailsOnly P (keep body test refs)
  | [], _ => .ok _
  | r :: _, h =>
    (failsOnly_instructionAt (h r List.mem_cons_self)).bind fun _ =>
      (failsOnly_keep test fun r' hr' => h r' (List.mem_cons_of_mem _ hr')).bind fun _ => .ok _

/-- Operands of a body are indices of it, or a trap is allowed. -/
theorem operand_in_reach {body : List Op} (hbody : P .trap ∨ Flat.Closed body) {op : Op}
    (hop : op ∈ body) {r : Nat} (hr : r ∈ op.instruction.operands) :
    P .trap ∨ r < body.length :=
  hbody.imp_right fun hclosed => hclosed op hop r hr

/-- Literals are found or an index is out of range. -/
theorem failsOnly_materialized {body : List Op} (hbody : P .trap ∨ Flat.Closed body) :
    FailsOnly P (materialized body) := by
  refine .bind (.mapM fun op hop => ?_) fun _ => .ok _
  have hreach : ∀ r ∈ op.instruction.operands, P .trap ∨ r < body.length :=
    fun r hr => operand_in_reach hbody hop hr
  unfold literalsOf
  split
  · rename_i hinstr
    refine failsOnly_keep _ fun r hr => hreach r ?_
    rw [hinstr]
    exact List.mem_cons.mpr (.inl (List.mem_singleton.mp hr))
  · exact failsOnly_keep _ hreach
  · exact failsOnly_keep _ hreach
  · exact failsOnly_keep _ hreach
  · rename_i hinstr
    refine failsOnly_keep _ fun r hr => hreach r ?_
    rw [hinstr]
    exact List.mem_cons_of_mem _ hr
  · exact .ok _

include hP

/-- The address of a global is known or missing. -/
theorem failsOnly_global (scope : Scope) (body : List Op) (index : Nat) (var : Var) :
    FailsOnly P (scope.global body index var) := by
  cases var with
  | localVar name => exact .error (hP.fault (by intro h; cases h))
  | globalVar label =>
      rw [Scope.global]
      split
      · exact .ok _
      · exact .error (hP.fault (by intro h; cases h))

/-- The offset of a variable is known or missing. -/
theorem failsOnly_var (scope : Scope) (body : List Op) (index : Nat) (var : Var) :
    FailsOnly P (scope.var body index var) := by
  cases var with
  | localVar name =>
      rw [Scope.var]
      split
      · exact .ok _
      · exact .error (hP.fault (by intro h; cases h))
  | globalVar label => exact (failsOnly_global hP scope body index _).bind fun _ => .ok _

/-- Ports are passed or a variable is missing. -/
theorem failsOnly_passPort (scope : Scope) {body : List Op} (passed : List Nat) {index : Nat}
    (hbody : P .trap ∨ Flat.Closed body) (hindex : P .trap ∨ index < body.length) :
    FailsOnly P (passPort scope body passed index) := by
  refine (failsOnly_instructionAt hindex).chain fun instruction hinstruction => ?_
  obtain ⟨op, hop, hinstr⟩ := instructionAt_eq_ok hinstruction
  have hreach : ∀ r ∈ op.instruction.operands, P .trap ∨ r < body.length :=
    fun r hr => operand_in_reach hbody (List.mem_of_getElem? hop) hr
  rw [hinstr] at hreach
  split
  · refine (failsOnly_instructionAt (hreach _ (by simp [Instruction.operands]))).bind fun place => ?_
    refine (failsOnly_instructionAt (hreach _ (by simp [Instruction.operands]))).bind fun source => ?_
    split
    · exact (failsOnly_var hP scope body _ _).bind fun _ => .ok _
    · exact .ok _
  · exact .ok _

/-- All ports are passed, or a variable is missing. -/
theorem failsOnly_passPorts (scope : Scope) {body : List Op} (hbody : P .trap ∨ Flat.Closed body) :
    FailsOnly P (passPorts scope body) := by
  refine .foldlM_of (fun state => Ported body state.1 state.2) (fun state index hindex hstate => ?_)
    (fun _ _ _ hstate hstep => ported_of_passPort hstate hstep) (.refl body)
  refine failsOnly_passPort hP scope state.2 (hbody.imp_right hstate.closed) (.inr ?_)
  rw [hstate.length_eq]
  exact List.mem_range.mp hindex

/-- A comparison gets its slot or its variable is missing. -/
theorem failsOnly_comparison (v : Visit) (hbody : P .trap ∨ Flat.Closed v.body) (pools : Pools)
    (index last : Nat) : FailsOnly P (v.comparison pools index last) := by
  unfold Visit.comparison
  split
  · exact .ok _
  · refine .bind ?_ fun target => ?_
    · unfold copyTarget?
      split
      · rename_i op hop
        split
        · rename_i hinstr
          split
          · refine (failsOnly_instructionAt (operand_in_reach hbody (List.mem_of_getElem? hop)
              (by rw [hinstr]; exact List.mem_cons_self))).bind fun _ => ?_
            split
            · exact .ok _
            · exact .ok _
          · exact .ok _
        · exact .ok _
      · exact .ok _
    · split
      · exact (failsOnly_var hP _ _ _ _).bind fun _ => .ok _
      · exact .ok _

/-- A jump knows where it goes or does not. -/
theorem failsOnly_checkTarget (v : Visit) (index : Nat) (target : Flat.Target) :
    FailsOnly P (v.checkTarget index target) := by
  unfold Visit.checkTarget
  split
  · exact .ok _
  · exact .error (hP.fault (by intro h; cases h))

/-- An assignment goes to a place or to none. -/
theorem failsOnly_checkPlace (v : Visit) (index : Nat) {target : Nat}
    (htarget : P .trap ∨ target < v.body.length) : FailsOnly P (v.checkPlace index target) := by
  refine (failsOnly_instructionAt htarget).bind fun place => ?_
  split
  · exact .ok _
  · exact .ok _
  · exact .ok _
  · exact .ok _
  · exact .error (hP.fault (by intro h; cases h))

/-- An op gets its offset or breaks a rule of its own. -/
theorem failsOnly_offset (v : Visit) (hbody : P .trap ∨ Flat.Closed v.body) (pools : Pools)
    (index last : Nat) {op : Op} (hop : op ∈ v.body) :
    FailsOnly P (v.offset pools index last op.instruction) := by
  have hreach : ∀ r ∈ op.instruction.operands, P .trap ∨ r < v.body.length :=
    fun r hr => operand_in_reach hbody hop hr
  unfold Visit.offset
  split
  · exact (failsOnly_checkTarget hP v index _).bind fun _ => .ok _
  · exact (failsOnly_checkTarget hP v index _).bind fun _ => .ok _
  · rename_i hinstr
    rw [hinstr] at hreach
    exact (failsOnly_checkPlace hP v index (hreach _ List.mem_cons_self)).bind fun _ => .ok _
  · exact (failsOnly_var hP _ _ _ _).bind fun _ => .ok _
  · exact (failsOnly_var hP _ _ _ _).bind fun _ => .ok _
  · exact (failsOnly_global hP _ _ _ _).bind fun _ => .ok _
  · exact (failsOnly_global hP _ _ _ _).bind fun _ => .ok _
  · exact (failsOnly_global hP _ _ _ _).bind fun _ => .ok _
  · split
    · exact .ok _
    · exact (failsOnly_global hP _ _ _ _).bind fun _ => .ok _
  · exact .ok _
  · exact .ok _
  · exact failsOnly_comparison hP v hbody pools index last
  · exact .ok _
  · exact .ok _
  · exact .ok _
  · exact .ok _
  · exact .ok _

omit hP in
/-- Ops are visited or one breaks a rule. -/
theorem failsOnly_ops (hP : Admits P) (v : Visit) (hbody : P .trap ∨ Flat.Closed v.body) :
    ∀ {ops : List Op} (pools : Pools) (index : Nat), ops ⊆ v.body →
      FailsOnly P (v.ops pools index ops)
  | [], _, _, _ => .ok _
  | op :: rest, pools, index, hsub => by
    rw [Visit.ops]
    refine (failsOnly_offset hP v hbody pools index _ (hsub List.mem_cons_self)).bind fun _ => ?_
    exact (failsOnly_ops hP v hbody _ _ fun op' hop' =>
      hsub (List.mem_cons_of_mem _ hop')).bind fun _ => .ok _

/-- A function gets its frame or breaks a rule. -/
theorem failsOnly_frame (globals : Table Nat) (source : Model.Function) {f : Function}
    (hbody : P .trap ∨ Flat.Closed f.body) : FailsOnly P (frame globals source f) := by
  refine (failsOnly_pinLocals hP _ _ _).bind fun pinned => ?_
  refine (failsOnly_passPorts hP _ hbody).chain fun passed hpassed => ?_
  have hclosed : P .trap ∨ Flat.Closed passed.1 :=
    hbody.imp_right (ported_of_passPorts hpassed).closed
  refine (failsOnly_materialized hclosed).bind fun literals => ?_
  exact (failsOnly_ops hP ⟨_, _, _, literals⟩ hclosed _ _ fun _ h => h).bind fun _ => .ok _

/-- A function is looked up or missing. -/
theorem failsOnly_source (model : Model.Program) (label : String) :
    FailsOnly P (orFail ((model.function label).mapError Located.nowhere)) := by
  unfold Model.Program.function
  split
  · exact .error (hP.refusal rfl)
  · split
    · exact .error (hP.refusal rfl)
    · exact .ok _

omit hP in
/-- **Functions get their frames**, or one is missing or breaks a rule.  The ops of a closed body
name ops of the body only; for other bodies a trap has to be admitted. -/
theorem failsOnly_frames (hP : Admits P) (model : Model.Program) (globals : Table Nat) :
    ∀ {labels : List String} {p : Program}, labels.Nodup →
      (∀ label ∈ labels, ∀ f, p.find? label = some f → P .trap ∨ Flat.Closed f.body) →
      FailsOnly P (frames model globals p labels)
  | [], _, _, _ => .ok _
  | label :: rest, p, hnodup, hbodies => by
    rw [frames]
    refine (failsOnly_source hP model label).bind fun source => ?_
    split
    · exact .error (hP.refusal rfl)
    · rename_i f hf
      refine (failsOnly_frame hP globals source (hbodies label List.mem_cons_self f hf)).bind
        fun g => ?_
      refine failsOnly_frames hP model globals (List.nodup_cons.mp hnodup).2 fun other hother f' hf' => ?_
      have hne : other ≠ label := by
        rintro rfl
        exact (List.nodup_cons.mp hnodup).1 hother
      rw [Table.find?_insert_of_ne _ _ hne] at hf'
      exact hbodies other (List.mem_cons_of_mem _ hother) f' hf'

end Frames

section Windows

variable {P : Failure → Prop}

/-- A function stands on a mark, or its end leaves the range of a word. -/
theorem failsOnly_above {m : Mark} {f : Function}
    (htrap : ∀ file, wordLimit ≤ m.at file + (f.window file).count → P .trap) :
    FailsOnly P (m.above f) :=
  (FailsOnly.checkWord_of (htrap .register)).bind fun _ =>
    (FailsOnly.checkWord_of (htrap .bit)).bind fun _ => .ok _

mutual

/-- A tree is stacked, or a function is missing, or one ends out of range where it
stands. -/
theorem failsOnly_stack {p : Program} {m : Mark} :
    ∀ {tree : CallTree},
      (∀ name, tree.Occurs name → p.find? name = none →
        P (.error (.nowhere (.undefinedFunction name)))) →
      (∀ name n file, Standing (sizes p) m tree name n →
        wordLimit ≤ n.at file + (sizes p name).at file → P .trap) →
      FailsOnly P (stack p m tree)
  | .node name calls, hmissing, htrap => by
    rw [stack]
    cases hf : p.find? name with
    | none => exact .error (hmissing name (CallTree.occurs_name _) hf)
    | some f =>
        refine (failsOnly_above fun file => ?_).chain fun above habove => ?_
        · rw [← at_sizes hf file]
          exact htrap name m file .root
        · rw [above_eq_ok hf habove]
          refine failsOnly_stackAll (fun t ht other hother hnone => ?_) fun t ht other n file hn => ?_
          · refine hmissing other (hother.under ht) ?_
            rw [Table.find?_insert] at hnone
            split at hnone
            · cases hnone
            · exact hnone
          · rw [sizes_insert_raise hf] at hn ⊢
            exact htrap other n file (.call ht hn)

/-- Trees are stacked, or a function is missing, or one ends out of range where it
stands. -/
theorem failsOnly_stackAll {p : Program} {m : Mark} :
    ∀ {trees : List CallTree},
      (∀ t ∈ trees, ∀ name, t.Occurs name → p.find? name = none →
        P (.error (.nowhere (.undefinedFunction name)))) →
      (∀ t ∈ trees, ∀ name n file, Standing (sizes p) m t name n →
        wordLimit ≤ n.at file + (sizes p name).at file → P .trap) →
      FailsOnly P (stackAll p m trees)
  | [], _, _ => .ok _
  | tree :: rest, hmissing, htrap => by
    rw [stackAll]
    refine (failsOnly_stack (hmissing tree List.mem_cons_self)
      (htrap tree List.mem_cons_self)).chain fun q hq => ?_
    have hraise := raising_of_stack hq
    refine failsOnly_stackAll (fun t ht name hname hnone => ?_) fun t ht name n file hn => ?_
    · refine hmissing t (List.mem_cons_of_mem _ ht) name hname ?_
      cases hf : p.find? name with
      | none => rfl
      | some f =>
          obtain ⟨g, hg, _⟩ := hraise.same name f hf
          rw [hnone] at hg
          cases hg
    · rw [hraise.sizes_eq] at hn ⊢
      exact htrap t (List.mem_cons_of_mem _ ht) name n file hn

end

/-- A high-water mark is found, or some window ends out of range.  The search has no other way to
fail, and only for such a window a trap has to be admitted. -/
theorem failsOnly_highWater {p : Program} {m : Mark} {tree : CallTree}
    (htrap : ∀ name ∈ tree.discovery, ∀ f, p.find? name = some f →
      ∀ file, wordLimit ≤ (f.window file).base + (f.window file).count → P .trap) :
    FailsOnly P (highWater p m tree) := by
  refine .foldlM fun m f hf => ?_
  obtain ⟨name, hname, hf⟩ := List.mem_filterMap.mp hf
  exact (FailsOnly.checkWord_of (htrap name hname f hf .register)).bind fun _ =>
    (FailsOnly.checkWord_of (htrap name hname f hf .bit)).bind fun _ => .ok _

/-- A slot gets its address, or its window ends out of range or below the slot. -/
theorem failsOnly_anchorOffset {f : Function} {offset : Offset}
    (htrap : ∀ file slot, offset = .relative file slot →
      wordLimit ≤ (f.window file).base + (f.window file).count ∨ (f.window file).count ≤ slot →
      P .trap) : FailsOnly P (anchorOffset f.registers f.bits offset) := by
  have haddress : ∀ file slot, offset = .relative file slot →
      FailsOnly P (addressIn (f.window file) slot) := by
    intro file slot hoffset
    have htrap := htrap file slot hoffset
    refine (FailsOnly.checkWord_of fun hlimit => htrap (.inl hlimit)).chain fun top htop => ?_
    have htop := Flat.Window.upper_eq_ok htop
    refine (FailsOnly.checkedSub_of fun hlt => htrap (.inr (by omega))).chain fun below hbelow => ?_
    obtain ⟨_, hbelow⟩ := checkedSub_eq_ok.mp hbelow
    exact FailsOnly.checkedSub_of fun hlt => htrap (.inr (by omega))
  unfold anchorOffset
  split
  · exact (haddress .register _ rfl).bind fun _ => .ok _
  · exact (haddress .bit _ rfl).bind fun _ => .ok _
  · exact .ok _

/-- A function gets its addresses, or a window ends out of range or below one of its
slots. -/
theorem failsOnly_anchor {f : Function} (hslots : P .trap ∨ SlotsFit f)
    (hend : ∀ file, wordLimit ≤ (f.window file).base + (f.window file).count → P .trap) :
    FailsOnly P (anchor f) := by
  have hoffset : ∀ offset, (SlotsFit f → Fits (fun file => (f.window file).count) offset) →
      FailsOnly P (anchorOffset f.registers f.bits offset) := by
    intro offset hwithin
    refine failsOnly_anchorOffset fun file slot hrelative hor => ?_
    rcases hor with hlimit | hle
    · exact hend file hlimit
    · rcases hslots with htrap | hslots
      · exact htrap
      · exact absurd (hwithin hslots file slot hrelative) (Nat.not_lt.mpr hle)
  refine .bind (.mapM fun op hop => ?_) fun _ => ?_
  · exact (hoffset _ fun h => h.1 op hop).bind fun _ => .ok _
  · refine .bind (.tableMapM fun name offset hfind => ?_) fun _ => .ok _
    exact hoffset _ fun h => h.2 name offset hfind

/-- Functions get their addresses, or a window ends out of range or below a slot. -/
theorem failsOnly_anchorAll :
    ∀ {labels : List String} {p : Program}, labels.Nodup →
      (∀ label ∈ labels, ∀ f, p.find? label = some f → (P .trap ∨ SlotsFit f) ∧
        ∀ file, wordLimit ≤ (f.window file).base + (f.window file).count → P .trap) →
      FailsOnly P (anchorAll p labels)
  | [], _, _, _ => .ok _
  | label :: rest, p, hnodup, hall => by
    obtain ⟨hnew, hnodup⟩ := List.nodup_cons.mp hnodup
    rw [anchorAll]
    split
    · exact failsOnly_anchorAll hnodup fun other hother => hall other (List.mem_cons_of_mem _ hother)
    · rename_i f hf
      obtain ⟨hslots, hend⟩ := hall label List.mem_cons_self f hf
      refine (failsOnly_anchor hslots hend).bind fun g => ?_
      refine failsOnly_anchorAll hnodup fun other hother f' hf' => ?_
      have hne : other ≠ label := fun heq => hnew (heq ▸ hother)
      rw [Table.find?_insert_of_ne _ _ hne] at hf'
      exact hall other (List.mem_cons_of_mem _ hother) f' hf'

end Windows

/-- A tree is stacked or a function is missing. -/
theorem refusal_stack (p : Program) (m : Mark) (tree : CallTree) :
    FailsOnly Refusal (stack p m tree) :=
  failsOnly_stack (fun _ _ _ => refusal_nowhere rfl) fun _ _ _ _ _ => refusal_trap

/-- A high-water mark is found or leaves the range of a word. -/
theorem refusal_highWater (p : Program) (m : Mark) (tree : CallTree) :
    FailsOnly Refusal (highWater p m tree) :=
  failsOnly_highWater fun _ _ _ _ _ _ => refusal_trap

/-- Handlers are stacked or a function is missing. -/
theorem refusal_stackHandlers :
    ∀ (handlers : List (Nat × CallTree)) (p : Program) (m : Mark) (placed : List String),
      FailsOnly Refusal (stackHandlers p m placed handlers)
  | [], _, _, _ => .ok _
  | (_, tree) :: rest, p, m, placed => by
    rw [stackHandlers]
    split
    · exact refusal_stackHandlers rest p m placed
    · exact (refusal_stack p m tree).bind fun p => (refusal_highWater p m tree).bind fun m =>
        refusal_stackHandlers rest p m _

end Storage

end Stackless
