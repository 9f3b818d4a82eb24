import Stackless.Proofs.Assigning
import Stackless.Proofs.OperandCells

/-!
# Straight-line code runs as it flows

`Kept` says of a piece of code that its values are kept until they are used: variables are
apart from the cells of temporaries, and no op computes into the cell of a value that is still
to be used.  Op by op, the machine then has what flat code says (`Kept.simulates`): the trace,
the memory, every cell that is not temporary, and every value that was not overwritten.
-/

namespace Stackless

open Flat (Op Instruction Offset File Width Var Gives Suits Context codeOf)
open Assembly
open Assembly.Emission (writes_of_outcome)

/-- An op is seen as before if its cell is as before. -/
theorem Machine.seen?_congr {s s' : Machine} {op : Op}
    (h : ∀ cell, op.cell? = some cell → s'.datum cell = s.datum cell) : s.seen? op = s'.seen? op := by
  obtain ⟨instruction, offset, lastUse, position⟩ := op
  cases offset with
  | absolute address =>
      cases instruction with
      | ram | rom | portOut => rfl
      | _ => exact congrArg some (h _ rfl).symm
  | _ => cases instruction <;> rfl

namespace Assembly.Writing

variable {w : Writing} {ctx : Context} {scene : Scene} {Temporary : File × Nat → Prop}
variable {start : Nat} {code : List Instruction}

/-- Named storage is where it is said to be, and variables are no temporaries. -/
def Named (w : Writing) (address : Var → Nat) (Temporary : File × Nat → Prop) (op : Op) : Prop :=
  match op.instruction with
  | .register var => op.offset = .absolute (address var) ∧ ¬Temporary (.register, address var) ∧
      address var ≠ scratch
  | .bit var => op.offset = .absolute (address var) ∧ ¬Temporary (.bit, address var)
  | .ram var | .rom var | .portOut var => op.offset = .absolute (address var)
  | .portIn var => w.addresses.find? var.text = some (address var)
  | _ => True

/-- **Code whose values are kept until they are used.**  The last op may compute into a cell
that is not temporary. -/
structure Kept (w : Writing) (ctx : Context) (address : Var → Nat)
    (Temporary : File × Nat → Prop) (start : Nat) (code : List Instruction) : Prop where
  op : ∀ {n : Nat} {x : Instruction}, code[n]? = some x → ∃ op, w.function.body[start + n]? = some op ∧
    op.instruction = x ∧ (w.opLines (start + n) op).outcome = .ok ()
  inner : ∀ {n : Nat} {x : Instruction}, code[n]? = some x → n + 1 < code.length → x.isInner = true ∧ x.isCall = false
  back : ∀ {n : Nat} {x : Instruction} {r : Nat}, code[n]? = some x → r ∈ x.operands → start ≤ r ∧ r < start + n
  suits : ∀ {n : Nat} {x : Instruction}, code[n]? = some x → Suits ctx w.look x
  named : ∀ {n : Nat} {op : Op}, n < code.length → w.function.body[start + n]? = some op →
    w.Named address Temporary op
  temporary : ∀ {n : Nat} {cell : File × Nat}, n + 1 < code.length → w.own? (start + n) = some cell → Temporary cell
  scratch_free : ¬Temporary (.register, scratch)
  apart : ∀ {n : Nat} {x : Instruction} {r k : Nat} {cell : File × Nat}, code[n]? = some x →
    r ∈ x.operands → r < k → k < start + n → w.own? r = some cell → w.own? k ≠ some cell
  strict : ∀ {n : Nat} {x : Instruction} {r address : Nat}, code[n]? = some x → r ∈ x.operands →
    w.own? (start + n) = some (.register, address) → w.own? r ≠ some (.register, address)

/-- **The machine behind the first ops of a piece of code.** -/
structure Simulates (w : Writing) (scene : Scene) (Temporary : File × Nat → Prop) (start n : Nat)
    (after : (Nat → Datum) × List Event) (s : Machine) : Prop where
  trace_eq : s.trace = after.2
  ram_eq : s.ram = scene.machine.ram
  frame : ∀ cell, ¬Temporary cell → cell ≠ (.register, scratch) →
    s.datum cell = scene.machine.datum cell
  /-- A value that was not overwritten is there. -/
  shows : ∀ r op, start ≤ r → r < start + n → w.function.body[r]? = some op →
    (∀ k cell, r < k → k < start + n → w.own? r = some cell → w.own? k ≠ some cell) →
    s.Shows op (after.1 r)

/-- A register that a word is read from is that of a variable, or of the word itself. -/
theorem own_of_operand {w : Writing} {address : Var → Nat} {Temporary : File × Nat → Prop} {op : Op}
    {r target : Nat} (hop : w.function.body[r]? = some op) (hnamed : w.Named address Temporary op)
    (hgives : Gives w.look r .word) (hsource : w.operand r = .ok (.cell target)) :
    (¬Temporary (.register, target) ∧ target ≠ scratch) ∨ w.own? r = some (.register, target) := by
  obtain ⟨op', hop', hsource⟩ := operand_eq_ok.mp hsource
  rw [hop] at hop'
  cases hop'
  obtain ⟨y, hy, hkind⟩ := hgives
  rw [look, Flat.codeOf_getElem? hop] at hy
  cases hy
  obtain ⟨instruction, offset, lastUse, position⟩ := op
  cases offset with
  | absolute address' =>
      cases instruction with
      | register var =>
          cases hsource
          obtain ⟨heq, hnot, hne⟩ := hnamed
          cases heq
          exact .inl ⟨hnot, hne⟩
      | ram | rom => cases hsource
      | portIn | element | int =>
          cases hsource
          exact .inr ((own?_eq_some hop).mpr ⟨rfl, rfl⟩)
      | math o width lhs rhs =>
          cases hsource
          cases hkind
          exact .inr ((own?_eq_some hop).mpr ⟨rfl, rfl⟩)
      | call function result =>
          cases hsource
          cases result with
          | none => cases hkind
          | some width =>
              cases hkind
              exact .inr ((own?_eq_some hop).mpr ⟨rfl, rfl⟩)
      | _ => cases hkind
  | _ => cases instruction <;> cases hsource

/-- The machine runs through the first ops of a body as far as the last of them, and through its
lines. -/
theorem run_written_succ {p : Processor} {s mid : Machine} {n : Nat} {op : Op}
    (hop : w.function.body[start + n]? = some op)
    (hrun : p.run (w.written start ((w.function.body.drop start).take n)) s = some mid) :
    p.run (w.written start ((w.function.body.drop start).take (n + 1))) s =
      p.run (w.opLines (start + n) op).lines mid := by
  have htake : (w.function.body.drop start).take (n + 1) =
      (w.function.body.drop start).take n ++ [op] := by
    rw [List.take_add_one, List.getElem?_drop, hop]
    rfl
  have hlength : ((w.function.body.drop start).take n).length = n := by
    have hlt := (List.getElem?_eq_some_iff.mp hop).1
    rw [List.length_take, List.length_drop]
    omega
  rw [htake, written_append, Processor.run_append, hrun, hlength]
  show p.run ((w.opLines (start + n) op).lines ++ []) mid = _
  rw [List.append_nil]

namespace Kept

variable (h : w.Kept ctx scene.address Temporary start code)

include h

/-- A word that is used by an op is in a register that is neither scratch nor that of the op. -/
theorem source_ne {n r : Nat} {x : Instruction} {source : Source} (hx : code[n]? = some x)
    (hr : r ∈ x.operands) (hgives : Gives w.look r .word) (hsource : w.operand r = .ok source)
    (hown : ∀ address, w.own? (start + n) = some (.register, address) →
      Temporary (.register, address) ∨ x.operands = []) :
    source ≠ .cell scratch ∧ ∀ address, w.own? (start + n) = some (.register, address) →
      source ≠ .cell address := by
  obtain ⟨hle, hlt⟩ := h.back hx hr
  have hn : n < code.length := (List.getElem?_eq_some_iff.mp hx).1
  obtain ⟨op, hop, _⟩ := operand_eq_ok.mp hsource
  have hrindex : start + (r - start) = r := by omega
  have hnamed : w.Named scene.address Temporary op :=
    h.named (n := r - start) (by omega) (hrindex.symm ▸ hop)
  have hcases : ∀ address, source = .cell address →
      (¬Temporary (.register, address) ∧ address ≠ scratch) ∨ w.own? r = some (.register, address) :=
    fun address heq => own_of_operand hop hnamed hgives (heq ▸ hsource)
  have htemporary : ∀ address, w.own? r = some (.register, address) → Temporary (.register, address) :=
    fun address hcell => h.temporary (n := r - start) (by omega) (hrindex.symm ▸ hcell)
  constructor
  · intro heq
    rcases hcases _ heq with ⟨_, hne⟩ | hcell
    · exact hne rfl
    · exact h.scratch_free (htemporary _ hcell)
  · intro address haddress heq
    rcases hcases _ heq with ⟨hnot, _⟩ | hcell
    · rcases hown address haddress with htemp | hnone
      · exact hnot htemp
      · rw [hnone] at hr
        cases hr
    · exact h.strict hx hr haddress hcell

/-- Named storage is seen as it is. -/
theorem shows_named {n : Nat} {op : Op} {s : Machine} {after : (Nat → Datum) × List Event}
    {values : Nat → Datum} {trace : List Event}
    (hs : w.Simulates scene Temporary start n after s) {m : Nat} (hm : m < code.length)
    (hop : w.function.body[start + m]? = some op) (hstorage : op.instruction.isStorage = true)
    (hport : ∀ var, op.instruction ≠ .portIn var) :
    s.Shows op (scene.give values trace op.instruction).1 := by
  have hnamed := h.named hm hop
  obtain ⟨instruction, offset, lastUse, position⟩ := op
  intro b hb
  cases instruction with
  | register var =>
      obtain ⟨heq, hnot, hne⟩ := hnamed
      cases heq
      cases hb
      exact hs.frame (.register, scene.address var) hnot fun heq => hne (Prod.ext_iff.mp heq).2
  | bit var =>
      obtain ⟨heq, hnot⟩ := hnamed
      cases heq
      cases hb
      exact hs.frame (.bit, scene.address var) hnot fun heq => by cases (Prod.ext_iff.mp heq).1
  | ram var | rom var =>
      cases hnamed
      cases hb
      rfl
  | portOut var =>
      cases hnamed
      cases hb
  | portIn var => exact absurd rfl (hport var)
  | _ => cases hstorage

/-- **Every op finds what it needs.**  Its operands were computed before, and no op in between has
written their cells. -/
theorem prepared {n : Nat} {x : Instruction} {s : Machine} {after : (Nat → Datum) × List Event}
    (hs : w.Simulates scene Temporary start n after s) (hx : code[n]? = some x)
    (hinner : x.isInner = true) (hcalls : x.isCall = false)
    (hown : ∀ address, w.own? (start + n) = some (.register, address) →
      Temporary (.register, address) ∨ x.operands = []) {op : Op}
    (hop : w.function.body[start + n]? = some op) (hinstr : op.instruction = x) :
    w.Prepared ctx scene after.1 s (start + n) op := by
  subst hinstr
  have hn : n < code.length := (List.getElem?_eq_some_iff.mp hx).1
  refine ⟨hop, h.suits hx, fun r hr op' hop' => ?_, fun r hr hgives source hsource => ?_, hs.ram_eq,
    fun var hport => ?_, fun hstorage hport => ?_⟩
  · obtain ⟨hle, hlt⟩ := h.back hx hr
    exact hs.shows r op' hle hlt hop' fun k cell hrk hk hcell => h.apart hx hr hrk hk hcell
  · exact h.source_ne hx hr hgives hsource hown
  · have hnamed := h.named hn hop
    rw [Named, hport] at hnamed
    exact hnamed
  · exact h.shows_named hs hn hop hstorage hport

/-- The cell in which an op is seen is its own, or that of a variable. -/
theorem own_or_named {n : Nat} {op : Op} {cell : File × Nat} (hn : n + 1 < code.length)
    (hop : w.function.body[start + n]? = some op) (hcell : op.cell? = some cell) :
    (w.own? (start + n) = some cell ∧ Temporary cell) ∨
      (¬Temporary cell ∧ cell ≠ (.register, scratch)) := by
  obtain ⟨x, hx⟩ : ∃ x, code[n]? = some x := ⟨_, List.getElem?_eq_getElem (by omega)⟩
  obtain ⟨op', hop', rfl, _⟩ := h.op hx
  rw [hop] at hop'
  cases hop'
  obtain ⟨hinner, hcalls⟩ := h.inner hx hn
  have hnamed := h.named (by omega) hop
  have hresult : op.instruction.resultFile? = some cell.1 → op.offset = .absolute cell.2 →
      (w.own? (start + n) = some cell ∧ Temporary cell) ∨
        (¬Temporary cell ∧ cell ≠ (.register, scratch)) := by
    intro hfile hoffset
    have hown := (own?_eq_some hop).mpr ⟨hfile, hoffset⟩
    exact .inl ⟨hown, h.temporary hn hown⟩
  obtain ⟨instruction, offset, lastUse, position⟩ := op
  cases offset with
  | absolute address =>
      cases instruction with
      | register var =>
          obtain ⟨heq, hnot, hne⟩ := hnamed
          cases heq
          cases hcell
          exact .inr ⟨hnot, fun heq => hne (Prod.ext_iff.mp heq).2⟩
      | bit var =>
          obtain ⟨heq, hnot⟩ := hnamed
          cases heq
          cases hcell
          exact .inr ⟨hnot, fun heq => by cases (Prod.ext_iff.mp heq).1⟩
      | portIn | element | address | int | bool | compare | math =>
          cases hcell
          exact hresult rfl rfl
      | ram | rom | portOut => cases hcell
      | call | parameter => cases hcalls
      | _ => cases hinner
  | _ => cases instruction <;> cases hcell

/-- **One op.** -/
theorem step {n : Nat} {x : Instruction} {s : Machine} {after : (Nat → Datum) × List Event}
    (hs : w.Simulates scene Temporary start n after s) (hx : code[n]? = some x)
    (hn : n + 1 < code.length) :
    ∃ op s', w.function.body[start + n]? = some op ∧
      scene.processor.run (w.opLines (start + n) op).lines s = some s' ∧
      w.Simulates scene Temporary start (n + 1)
        (Function.update after.1 (start + n) (scene.give after.1 after.2 x).1,
          (scene.give after.1 after.2 x).2) s' := by
  obtain ⟨op, hop, rfl, houtcome⟩ := h.op hx
  obtain ⟨hinner, hcalls⟩ := h.inner hx hn
  have hwrites := writes_of_outcome houtcome
  have hprepared := h.prepared hs hx hinner hcalls
    (fun _ hown => .inl (h.temporary hn hown)) hop rfl
  obtain ⟨s', hrun, hshows, htrace, hram⟩ := hprepared.run_op hinner hcalls hwrites
  rw [hs.trace_eq] at hshows htrace
  have hkept : ∀ cell, w.own? (start + n) ≠ some cell → cell ≠ (.register, scratch) →
      s'.datum cell = s.datum cell := by
    intro cell hown hne
    refine Processor.run_frame hrun fun hcell => ?_
    rcases hprepared.written_op hinner hcalls hwrites hcell with heq | heq
    · exact hown heq
    · exact hne heq
  refine ⟨op, s', hop, hrun, htrace, hram.trans hs.ram_eq, fun cell hnot hne => ?_, ?_⟩
  · rw [hkept cell (fun hown => hnot (h.temporary hn hown)) hne]
    exact hs.frame cell hnot hne
  · intro r op' hle hlt hop' hover
    by_cases hr : r = start + n
    · subst hr
      rw [hop] at hop'
      cases hop'
      show s'.Shows op (Function.update after.1 (start + n) _ (start + n))
      rw [Function.update_self]
      exact hshows
    · have hold := hs.shows r op' hle (by omega) hop' fun k cell hrk hk => hover k cell hrk (by omega)
      show s'.Shows op' (Function.update after.1 (start + n) _ r)
      rw [Function.update_of_ne hr]
      intro b hb
      refine hold b ?_
      rw [← hb]
      refine Machine.seen?_congr fun cell hcell => ?_
      have hrindex : start + (r - start) = r := by omega
      rcases h.own_or_named (n := r - start) (by omega) (hrindex.symm ▸ hop') hcell with
        ⟨hown, htemporary⟩ | ⟨hnot, hne⟩
      · rw [hrindex] at hown
        refine hkept cell (hover (start + n) cell (by omega) (by omega) hown) fun heq => ?_
        exact h.scratch_free (heq ▸ htemporary)
      · exact hkept cell (fun hown => hnot (h.temporary hn hown)) hne

/-- **The machine runs as the code flows**, up to the last op. By induction on the number of ops:
each computes its value, and what an op writes is no value that is still to be used. -/
theorem simulates (values : Nat → Datum) {n : Nat} (hn : n < code.length) :
    ∃ s, scene.processor.run (w.written start ((w.function.body.drop start).take n)) scene.machine =
        some s ∧
      w.Simulates scene Temporary start n
        (scene.flow start (code.take n) (values, scene.machine.trace)) s := by
  induction n with
  | zero =>
      exact ⟨scene.machine, rfl, rfl, rfl, fun _ _ _ => rfl, fun r op hle hlt => by omega⟩
  | succ n ih =>
      obtain ⟨s, hrun, hs⟩ := ih (by omega)
      obtain ⟨x, hx⟩ : ∃ x, code[n]? = some x := ⟨_, List.getElem?_eq_getElem (by omega)⟩
      obtain ⟨op, s', hop, hstep, hs'⟩ := h.step hs hx hn
      refine ⟨s', (run_written_succ hop hrun).trans hstep, ?_⟩
      have hcode : code.take (n + 1) = code.take n ++ [x] := by
        rw [List.take_add_one, hx]
        rfl
      rw [hcode, Scene.flow_snoc, List.length_take, Nat.min_eq_left (by omega)]
      exact hs'

end Kept

end Assembly.Writing

end Stackless
