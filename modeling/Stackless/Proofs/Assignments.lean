import Stackless.Proofs.AssignmentCode

/-!
# Assignments compute what they say

The lines of an assignment without calls leave the value of its expression in its target, in
every state of the machine.  Ports are read once each, from left to right, those of the target
behind those of the value; and of all other cells only temporaries and the scratch register
change (`assignments_compute`).

Besides types, the theorem asks that the program is tidy, that its functions are stored where their
labels say, and that no symbol takes the name of a result into another file.  None of this is
checked anywhere, and all of it matters: `assignments_miscompiled` has three programs, each of which
lacks one of the three, and in each of which the lines of an assignment write the wrong word.
-/

namespace Stackless

open Flat (Op Instruction Offset File Width Var Context Evaluation AssignPiece codeOf)
open Assembly
open Storage (ReadsPort)
open Model (Expr MathOp)

/-- A variable that is assigned to is a single instruction. -/
theorem Flat.evaluatePlace_single {ctx : Context} {e : Expr} {start : Nat} {out : Evaluation}
    (h : Flat.evaluatePlace ctx start e = .ok out)
    (hresult : ∀ array index, out.result ≠ .address array index) : out.before = [] := by
  unfold Flat.evaluatePlace at h
  split at h
  · obtain ⟨⟨var, symbol⟩, _, h⟩ := bind_eq_ok.mp h
    exact Flat.writeVar?_single (Flat.orError_eq_ok.mp h)
  · obtain ⟨_, _, h⟩ := bind_eq_ok.mp h
    obtain ⟨_, _, h⟩ := bind_eq_ok.mp h
    obtain ⟨_, _, h⟩ := bind_eq_ok.mp h
    cases h
    exact absurd rfl (hresult _ _)
  · cases h

namespace Scene

variable (scene : Scene) {ctx : Context} {stmts : List Model.Stmt} {code : List Instruction}
  {change : Option MathOp} {width : Width} {t v j : Nat}

/-- **The code of an assignment leaves its value and its target.** -/
theorem flow_inner (p : AssignPiece ctx stmts code change width t v j)
    (hvalue : p.value.callFree = true) (htarget : p.target.callFree = true) (values : Nat → Datum) :
    let after := scene.flow p.start p.inner (values, scene.machine.trace)
    after.1 v = (scene.eval ctx p.value scene.machine.trace).1 ∧
      scene.target ctx p.target p.value = (scene.place after.1 t p.place.result, after.2) := by
  obtain ⟨hdatum, htrace, _⟩ :=
    scene.flow_evaluate p.value hvalue p.source_eq values scene.machine.trace
  obtain ⟨happend, hkept⟩ :=
    scene.flow_pair p.start p.source p.place (values, scene.machine.trace)
  obtain ⟨hplace, hafter⟩ := scene.flow_evaluatePlace htarget p.place_eq
    (scene.flow p.start p.source.code (values, scene.machine.trace)).1
    (scene.flow p.start p.source.code (values, scene.machine.trace)).2
  intro after
  have hafter' : after = scene.flow (p.source.next p.start) p.place.code
      (scene.flow p.start p.source.code (values, scene.machine.trace)) := happend
  constructor
  · calc after.1 v = after.1 (p.source.ref p.start) := congrArg after.1 p.value_eq
      _ = _ := hkept
      _ = _ := hdatum
  · have hindex : scene.place after.1 t p.place.result =
        scene.place after.1 (p.place.ref (p.source.next p.start)) p.place.result :=
      congrArg (fun i => scene.place after.1 i p.place.result) p.target_eq
    rw [Scene.target, ← htrace, hindex, Prod.ext_iff]
    exact ⟨by rw [← hplace, hafter'], by rw [← hafter, hafter']⟩

/-- A truth literal that is assigned is its value. -/
theorem flow_literal (p : AssignPiece ctx stmts code change width t v j) {b : Bool}
    (hresult : p.source.result = .bool b) (values : Nat → Datum) :
    (scene.flow p.start p.inner (values, scene.machine.trace)).1 v = .bit b := by
  obtain ⟨hlast, _⟩ := scene.flow_code p.start p.source (values, scene.machine.trace)
  obtain ⟨_, hkept⟩ := scene.flow_pair p.start p.source p.place (values, scene.machine.trace)
  calc (scene.flow p.start p.inner (values, scene.machine.trace)).1 v
      = (scene.flow p.start p.inner (values, scene.machine.trace)).1 (p.source.ref p.start) :=
        congrArg (scene.flow p.start p.inner (values, scene.machine.trace)).1 p.value_eq
    _ = _ := hkept
    _ = _ := hlast
    _ = .bit b := by rw [hresult]; rfl

/-- The machine that an assignment leads to, from its target and its value. -/
theorem assign_eq {target value : Expr} {place : Location × List Event} {a : Datum}
    (htarget : scene.target ctx target value = place)
    (hvalue : (scene.eval ctx value scene.machine.trace).1 = a) :
    scene.assign ctx target change value =
      { scene.machine with trace := (scene.assigned place.1 change a place.2).2 }.put place.1
        (scene.assigned place.1 change a place.2).1 := by
  rw [assign, htarget, hvalue]

end Scene

namespace Stages.Member

variable {model : Model.Program} {c : Compilation} {s : Stages model c} {label : String}

/-- The cells that an assignment may leave changed, besides its target: temporaries and the
scratch register. -/
def Passing (m : s.Member label) (location : Location) (cell : File × Nat) : Prop :=
  (m.Temporary cell ∨ cell = (.register, scratch)) ∧ location ≠ .cell cell

/-- A machine with the same cells as another, but for what is passing, makes the same of an
assignment to a cell that is not. -/
theorem goal_matches (m : s.Member label) {scene : Scene} {mid : Machine} (values : Nat → Datum)
    (change : Option MathOp) {location : Location} (v : Nat)
    (hram : mid.ram = scene.machine.ram)
    (hframe : ∀ cell, ¬m.Temporary cell → cell ≠ (.register, scratch) →
      mid.datum cell = scene.machine.datum cell)
    (hlocation : ∀ cell, location = .cell cell → ¬m.Temporary cell ∧ cell ≠ (.register, scratch)) :
    (Writing.Storing.goal scene values mid change location v).Matches (m.Passing location)
      ({ scene.machine with
          trace := (scene.assigned location change (values v) mid.trace).2 }.put location
        (scene.assigned location change (values v) mid.trace).1) := by
  have hassigned : ({ scene with machine := mid } : Scene).assigned location change (values v) mid.trace =
      scene.assigned location change (values v) mid.trace := by
    cases change with
    | none => rfl
    | some o =>
        have hget : ({ scene with machine := mid } : Scene).get location mid.trace =
            scene.get location mid.trace := by
          cases location with
          | cell cell =>
              obtain ⟨hnot, hne⟩ := hlocation cell rfl
              exact congrArg (·, mid.trace) (hframe cell hnot hne)
          | memory address => exact congrArg (fun ram => (Datum.word (ram address), mid.trace)) hram
          | port port => rfl
        show (Scene.change _ o (Scene.get _ location mid.trace).1 _, _) = _
        rw [hget]
        rfl
  unfold Writing.Storing.goal
  rw [hassigned]
  generalize scene.assigned location change (values v) mid.trace = result
  have hcell : ∀ cell, ¬m.Passing location cell → location ≠ .cell cell →
      mid.datum cell = scene.machine.datum cell := by
    intro cell hpassing hne
    refine hframe cell (fun htemporary => ?_) fun hscratch => ?_
    · exact hpassing ⟨.inl htemporary, hne⟩
    · exact hpassing ⟨.inr hscratch, hne⟩
  cases location with
  | cell target =>
      refine .put_cell ?_ ?_ (Machine.datum_put_self _ _ _) fun cell hpassing hne => ?_
      · rw [Machine.put_cell_ram]
        exact hram
      · rw [Machine.put_cell_trace]
      · rw [Machine.datum_put_of_ne _ _ hne]
        exact hcell cell hpassing fun heq => hne (Location.cell.inj heq).symm
  | memory address =>
      refine ⟨?_, rfl, fun cell hpassing => hcell cell hpassing (by nofun)⟩
      exact congrArg (Function.update · address result.1.toWord) hram
  | port port =>
      exact ⟨hram, rfl, fun cell hpassing => hcell cell hpassing (by nofun)⟩

namespace Live

variable {m : s.Member label} {l : m.Lineage} {change : Option MathOp} {width : Width} {t v j : Nat}
variable (h : m.Live l change width t v j)

/-- The lines of the assignment. -/
def lines (h : m.Live l change width t v j) : List Line :=
  m.writing.written h.piece.start ((m.final.body.drop h.piece.start).take h.piece.all.length)

include h

/-- The value stands behind what computes it. -/
theorem value_index : v = h.piece.start + h.piece.source.before.length ∧
    t = v + 1 + h.piece.place.before.length ∧ j = t + 1 := by
  have hj := h.piece.index_eq
  have ht := h.piece.target_eq
  have hv := h.piece.value_eq
  rw [Evaluation.ref] at ht hv
  rw [Evaluation.next_eq] at ht
  rw [List.length_append, Evaluation.code, Evaluation.code, List.length_append, List.length_append,
    List.length_singleton, List.length_singleton] at hj
  rw [Evaluation.code, List.length_append, List.length_singleton] at ht
  exact ⟨hv, by omega, by omega⟩

theorem value_lt : v < m.final.body.length := by
  obtain ⟨_, _, _⟩ := h.value_index
  obtain ⟨x, hx, _⟩ := h.final_at (k := v) (by omega) (by omega) fun heq => absurd heq (by omega)
  obtain ⟨op, hop, _⟩ := Flat.exists_of_codeOf_getElem? hx
  exact (List.getElem?_eq_some_iff.mp hop).1

/-- The machine behind the assignment has what was assigned.  The lines run to their end, and leave
what the statement means, but for temporaries and the scratch register. -/
def Computed (h : m.Live l change width t v j) (scene : Scene) : Prop :=
  ∃ after, scene.processor.run h.lines scene.machine = some after ∧
    after.Matches (m.Passing (scene.target ⟨model, l.origin⟩ h.piece.target h.piece.value).1)
      (scene.assign ⟨model, l.origin⟩ h.piece.target change h.piece.value)

/-- An assignment that reads no port into a variable is there in the end. -/
theorem look_assign (hport : ∀ var, ¬ReadsPort m.simple.body j t v var) :
    m.look j = some (.assign change width t v) := by
  have hsame : m.framing.visit.body[j]? = m.simple.body[j]? := by
    refine l.portsPassed.same j fun u t' v' var _ hreads => ⟨?_, ?_, ?_⟩
    · rintro rfl
      obtain hassign := hreads.assign
      rw [h.live] at hassign
      cases hassign
      exact hport var hreads
    · rintro rfl
      have htarget := hreads.target
      rw [h.live] at htarget
      cases htarget
    · rintro rfl
      obtain ⟨port, hvalue⟩ := hreads.value
      rw [h.live] at hvalue
      cases hvalue
  obtain ⟨op, hop, hinstr⟩ := Flat.exists_of_codeOf_getElem? h.live
  rw [m.look_eq, Flat.codeOf_getElem? (hsame.trans hop), hinstr]

variable {scene : Scene} (hscene : scene.address = m.addressOf)

include hscene in
/-- The location of the assignment is not passing. -/
theorem location_apart (values : Nat → Datum) {place : Op}
    (hplace : m.final.body[t]? = some place) {cell : File × Nat}
    (hcell : scene.place values t place.instruction = .cell cell) :
    ¬m.Temporary cell ∧ cell ≠ (.register, scratch) := by
  have hnamed := h.named_at hplace
  rw [← hscene] at hnamed
  unfold Writing.Named at hnamed
  cases hinstr : place.instruction with
  | register var =>
      rw [hinstr] at hcell hnamed
      cases hcell
      exact ⟨hnamed.2.1, fun heq => hnamed.2.2 (Prod.ext_iff.mp heq).2⟩
  | bit var =>
      rw [hinstr] at hcell hnamed
      cases hcell
      exact ⟨hnamed.2, fun heq => by cases (Prod.ext_iff.mp heq).1⟩
  | _ =>
      rw [hinstr] at hcell
      cases hcell

include hscene in
/-- The state behind the code of an assignment is fit for the assignment itself. -/
theorem storing {values : Nat → Datum} {trace : List Event} {mid : Machine} {place : Op}
    (part : h.Part h.piece.all)
    (hs : m.writing.Simulates scene m.Temporary h.piece.start h.piece.inner.length (values, trace) mid)
    (hplace : m.final.body[t]? = some place)
    (hliteral : ∀ b, m.look v = some (.bool b) → values v = .bit b) :
    m.writing.Storing ⟨model, l.origin⟩ scene values mid change width t v place := by
  have kept : m.writing.Kept ⟨model, l.origin⟩ scene.address m.Temporary h.piece.start h.piece.all :=
    hscene ▸ part.kept_code
  have hlast : h.piece.all[h.piece.inner.length]? = some (.assign change width t v) := by
    rw [AssignPiece.all, List.getElem?_append_right (Nat.le_refl _), Nat.sub_self]
    rfl
  refine ⟨hplace, part.suits hlast, fun r hr op hop => ?_, fun hwidth source hsource => ?_,
    fun hown => ?_, fun var hvar => ?_, hliteral⟩
  · obtain ⟨hle, hlt⟩ := kept.back hlast hr
    exact hs.shows r op hle hlt hop fun k cell hrk hk hcell => kept.apart hlast hr hrk hk hcell
  · have hsuits := part.suits hlast
    refine (kept.source_ne hlast (List.mem_cons_of_mem _ List.mem_cons_self) (hwidth ▸ hsuits.1)
      hsource fun address hown => ?_).1
    obtain ⟨op, hop, hinstr, _⟩ := kept.op hlast
    have hresult := ((Writing.own?_eq_some hop).mp hown).1
    rw [hinstr] at hresult
    cases hresult
  · have hback := kept.back hlast List.mem_cons_self
    obtain ⟨i, hi⟩ : ∃ i, t = h.piece.start + i := ⟨t - h.piece.start, by omega⟩
    rw [hi] at hown
    refine kept.scratch_free (kept.temporary (n := i) ?_ hown)
    rw [AssignPiece.all, List.length_append, List.length_singleton]
    omega
  · have hnamed := h.named_at hplace
    rw [← hscene] at hnamed
    unfold Writing.Named at hnamed
    rcases hvar with hvar | hvar | hvar
    · rw [hvar] at hnamed
      exact hnamed.1
    · rw [hvar] at hnamed
      exact hnamed.1
    · rw [hvar] at hnamed
      exact hnamed

include hscene in
/-- **An assignment whose value has a slot of its own.** -/
theorem computed_of_stored
    (hdirect : ∀ cell, m.writing.own? v = some cell → ¬m.Direct j t v cell.2)
    (hport : ∀ var, ¬ReadsPort m.simple.body j t v var) : h.Computed scene := by
  obtain ⟨hv, ht, hj⟩ := h.value_index
  have hjinner := h.piece.index_inner
  have hlook : ∀ {n : Nat} {x : Instruction}, h.piece.all[n]? = some x →
      m.look (h.piece.start + n) = some x := by
    intro n x hx
    have hlen := (List.getElem?_eq_some_iff.mp hx).1
    rw [AssignPiece.all, List.length_append, List.length_singleton] at hlen
    rcases Nat.lt_or_eq_of_le (Nat.lt_succ_iff.mp hlen) with hlt | rfl
    · obtain ⟨y, hy, hcode, _⟩ := h.final_at (k := h.piece.start + n) (by omega) (by omega) fun _ => hport
      rw [hy, ← hcode, h.piece.code_eq n hlt]
      rw [AssignPiece.all, List.getElem?_append_left hlt] at hx
      exact hx
    · rw [AssignPiece.all, List.getElem?_append_right (Nat.le_refl _), Nat.sub_self] at hx
      cases hx
      rw [← hjinner]
      exact h.look_assign hport
  have part : h.Part h.piece.all := ⟨List.prefix_rfl, hlook, fun _ _ => hdirect⟩
  have kept : m.writing.Kept ⟨model, l.origin⟩ scene.address m.Temporary h.piece.start h.piece.all :=
    hscene ▸ part.kept_code
  let values : Nat → Datum := fun _ => default
  have hlength : h.piece.all.length = h.piece.inner.length + 1 := by
    rw [AssignPiece.all, List.length_append, List.length_singleton]
  obtain ⟨mid, hrun, hs⟩ := kept.simulates values (n := h.piece.inner.length) (by omega)
  have htake : h.piece.all.take h.piece.inner.length = h.piece.inner := by
    rw [AssignPiece.all, List.take_left]
  rw [htake] at hs
  obtain ⟨hvalue, htarget⟩ := scene.flow_inner h.piece h.value_free h.target_free values
  have hlookPlace : m.look t = some h.piece.place.result := by
    obtain ⟨y, hy, hcode, _⟩ := h.final_at (k := t) (by omega) (by omega) fun _ => hport
    rw [hy, ← hcode, h.piece.target_at]
  obtain ⟨place, hplace, hresult⟩ := Flat.exists_of_codeOf_getElem? hlookPlace
  obtain ⟨op, hop, hinstr⟩ := Flat.exists_of_codeOf_getElem? (h.look_assign hport)
  have hstoring := h.storing hscene part hs hplace fun b hb => by
    obtain ⟨y, hy, hcode, _⟩ := h.final_at (k := v) (by omega) (by omega) fun _ => hport
    rw [hb, ← hcode, h.piece.value_at] at hy
    exact scene.flow_literal h.piece (Option.some.inj hy).symm values
  obtain ⟨after, hassign, hmatches⟩ := hstoring.run_assign hinstr
    (Emission.writes_of_outcome (h.writable j op hop))
  let computed := (scene.flow h.piece.start h.piece.inner (values, scene.machine.trace)).1
  have hgoal := m.goal_matches computed change v hs.ram_eq hs.frame fun cell hcell =>
    h.location_apart hscene computed hplace hcell
  rw [hs.trace_eq] at hgoal
  rw [hresult] at hgoal hmatches
  refine ⟨after, ?_, ?_⟩
  · rw [lines, hlength]
    rw [hjinner] at hop hassign
    exact (Writing.run_written_succ hop hrun).trans hassign
  · rw [scene.assign_eq htarget hvalue.symm, htarget]
    refine ⟨hmatches.ram_eq.trans hgoal.ram_eq, hmatches.trace_eq.trans hgoal.trace_eq,
      fun cell hcell => ?_⟩
    refine (hmatches.datum_eq cell fun hscratch => ?_).trans (hgoal.datum_eq cell hcell)
    exact hcell ⟨.inr hscratch.1, hscratch.2⟩

/-- The code of a value is there in the end, whatever becomes of it. -/
theorem part_source : h.Part h.piece.source.code := by
  obtain ⟨hv, ht, hj⟩ := h.value_index
  have hlength : h.piece.source.code.length = h.piece.source.before.length + 1 := by
    rw [Evaluation.code, List.length_append, List.length_singleton]
  refine ⟨?_, fun {n x} hx => ?_, fun {n} hn hindex => by omega⟩
  · rw [AssignPiece.all, AssignPiece.inner, List.append_assoc]
    exact List.prefix_append _ _
  · have hn := (List.getElem?_eq_some_iff.mp hx).1
    obtain ⟨y, hy, hcode, _⟩ := h.final_at (k := h.piece.start + n) (by omega) (by omega)
      fun heq => absurd heq (by omega)
    rw [hy, ← hcode, h.piece.code_eq n (by rw [List.length_append]; omega),
      List.getElem?_append_left hn]
    exact hx

include hscene

/-- **The lines of a value compute it.**  Of the other cells only temporaries and the scratch
register change. -/
theorem run_value {cell : File × Nat} (hown : m.writing.own? v = some cell)
    (hoperands : cell.1 = .register → h.piece.source.result.operands = []) :
    ∃ after, scene.processor.run (m.writing.written h.piece.start
        ((m.final.body.drop h.piece.start).take (h.piece.source.before.length + 1))) scene.machine =
        some after ∧
      (after.datum cell, after.trace) =
        scene.eval ⟨model, l.origin⟩ h.piece.value scene.machine.trace ∧
      after.ram = scene.machine.ram ∧
      ∀ other, ¬m.Temporary other → other ≠ (.register, scratch) → other ≠ cell →
        after.datum other = scene.machine.datum other := by
  obtain ⟨hv, _, _⟩ := h.value_index
  have kept : m.writing.Kept ⟨model, l.origin⟩ scene.address m.Temporary h.piece.start
      h.piece.source.code := hscene ▸ h.part_source.kept_code
  have hlast : h.piece.source.code[h.piece.source.before.length]? = some h.piece.source.result := by
    rw [Evaluation.code, List.getElem?_append_right (Nat.le_refl _), Nat.sub_self]
    rfl
  have hlength : h.piece.source.code.length = h.piece.source.before.length + 1 := by
    rw [Evaluation.code, List.length_append, List.length_singleton]
  let values : Nat → Datum := fun _ => default
  obtain ⟨mid, hrun, hs⟩ := kept.simulates values (n := h.piece.source.before.length) (by omega)
  have htake : h.piece.source.code.take h.piece.source.before.length = h.piece.source.before := by
    rw [Evaluation.code, List.take_left]
  rw [htake] at hs
  obtain ⟨op, hop, hinstr, houtcome⟩ := kept.op hlast
  have hwrites := Emission.writes_of_outcome houtcome
  have hresult : h.piece.source.result ∈ h.piece.inner :=
    List.mem_append_left _ (List.mem_append_right _ (List.mem_singleton_self _))
  have hinner := h.piece.isInner_inner _ hresult
  have hcall := h.isCall_inner _ hresult
  have hprepared := kept.prepared hs hlast hinner hcall (fun address howned => by
    rw [← hv, hown] at howned
    exact .inr (hoperands (congrArg Prod.fst (Option.some.inj howned)))) hop hinstr
  rw [← hinstr] at hinner hcall
  obtain ⟨after, hvalue, hshows, htrace, hram⟩ := hprepared.run_op hinner hcall hwrites
  obtain ⟨hfile, hoffset⟩ := (Writing.own?_eq_some (w := m.writing) hop).mp (hv ▸ hown)
  have hdatum : after.datum cell = _ := hshows _ (Machine.seen?_of_result hfile hoffset)
  rw [hs.trace_eq, hinstr] at hdatum htrace
  obtain ⟨hcode, hcodeTrace⟩ := scene.flow_code h.piece.start h.piece.source (values, scene.machine.trace)
  obtain ⟨heval, hevalTrace, _⟩ := scene.flow_evaluate h.piece.value h.value_free h.piece.source_eq
    values scene.machine.trace
  refine ⟨after, (Writing.run_written_succ hop hrun).trans hvalue, ?_, hram.trans hs.ram_eq,
    fun other htemporary hscratch hne => ?_⟩
  · rw [Prod.ext_iff]
    exact ⟨hdatum.trans (hcode.symm.trans heval), htrace.trans (hcodeTrace.symm.trans hevalTrace)⟩
  · rw [← hs.frame other htemporary hscratch]
    refine Processor.run_frame hvalue fun hmem => ?_
    rcases hprepared.written_op hinner hcall hwrites hmem with howned | heq
    · rw [← hv, hown] at howned
      exact hne (Option.some.inj howned).symm
    · exact hscratch heq

/-- **An assignment whose value goes straight to its variable.**  What is left of it behind the
value does nothing. -/
theorem computed_of_direct {cell : File × Nat} {var : Var}
    (hchange : change = none) (hown : m.writing.own? v = some cell)
    (hresult : h.piece.place.result = .register var ∧ cell = (.register, scene.address var) ∧
        h.piece.source.result.operands = [] ∨
      h.piece.place.result = .bit var ∧ cell = (.bit, scene.address var))
    (hrest : ∀ s, scene.processor.run
      (m.writing.written t ((m.final.body.drop t).take 2)) s = some s) : h.Computed scene := by
  obtain ⟨hv, ht, _⟩ := h.value_index
  have hoperands : cell.1 = .register → h.piece.source.result.operands = [] := by
    rintro hregister
    rcases hresult with ⟨_, _, hnone⟩ | ⟨_, rfl⟩
    · exact hnone
    · cases hregister
  have hsingle : h.piece.place.before = [] := by
    refine Flat.evaluatePlace_single h.piece.place_eq fun array index heq => ?_
    rcases hresult with ⟨hresult, _⟩ | ⟨hresult, _⟩ <;> exact absurd (hresult.symm.trans heq) (by nofun)
  obtain ⟨after, hrun, hvalue, hram, hframe⟩ := h.run_value hscene hown hoperands
  have htarget : scene.target ⟨model, l.origin⟩ h.piece.target h.piece.value =
      (.cell cell, after.trace) := by
    obtain ⟨hplace, hafter⟩ := scene.flow_evaluatePlace h.target_free h.piece.place_eq
      (fun _ => default) after.trace
    rw [Scene.target, ← hvalue, Prod.ext_iff, ← hplace, ← hafter, Evaluation.code, hsingle]
    rcases hresult with ⟨hresult, rfl, _⟩ | ⟨hresult, rfl⟩ <;>
    · rw [hresult]
      exact ⟨rfl, rfl⟩
  refine ⟨after, ?_, ?_⟩
  · have hall : h.piece.all.length = h.piece.source.before.length + 1 + 2 := by
      rw [AssignPiece.all, AssignPiece.inner, Evaluation.code, Evaluation.code, hsingle]
      simp
    have hcount : ((m.final.body.drop h.piece.start).take (h.piece.source.before.length + 1)).length =
        h.piece.source.before.length + 1 := by
      have hlt := h.value_lt
      rw [List.length_take, List.length_drop]
      omega
    rw [hsingle, List.length_nil, hv, Nat.add_zero] at ht
    rw [lines, hall, List.take_add, Writing.written_append, Processor.run_append, hrun, hcount,
      List.drop_drop, ← Nat.add_assoc, ← ht]
    exact hrest after
  · subst hchange
    rw [scene.assign_eq htarget (congrArg Prod.fst hvalue).symm, htarget]
    refine .put_cell hram rfl (Machine.datum_put_of_datum _ _ rfl).symm fun other hother hne => ?_
    have hcell : Location.cell cell ≠ .cell other := fun heq => hne (Location.cell.inj heq).symm
    exact hframe other (fun htemporary => hother ⟨.inl htemporary, hcell⟩)
      (fun hscratch => hother ⟨.inr hscratch, hcell⟩) hne

omit hscene in
/-- The lines of the two ops behind a value. -/
theorem written_pair {first last : Op} (hfirst : m.final.body[t]? = some first)
    (hlast : m.final.body[j]? = some last) :
    m.writing.written t ((m.final.body.drop t).take 2) =
      (m.writing.opLines t first).lines ++ (m.writing.opLines j last).lines := by
  obtain ⟨_, _, rfl⟩ := h.value_index
  obtain ⟨hlt, hget⟩ := List.getElem?_eq_some_iff.mp hfirst
  obtain ⟨hlt', hget'⟩ := List.getElem?_eq_some_iff.mp hlast
  rw [List.drop_eq_getElem_cons hlt, List.drop_eq_getElem_cons hlt', hget, hget']
  simp [Writing.written]

include hscene

/-- **A port that is read straight into a variable.** -/
theorem computed_of_readsPort {var : Var} (hreads : ReadsPort m.simple.body j t v var) :
    h.Computed scene := by
  obtain ⟨hv, ht, hj⟩ := h.value_index
  obtain ⟨port, hport⟩ := hreads.value
  have hassign := hreads.assign
  rw [h.live] at hassign
  cases hassign
  have htarget : h.piece.place.result = .register var := by
    obtain ⟨x, hx, hcode, _⟩ := h.simple_at (k := t) (by omega) (by omega)
    rw [h.piece.target_at] at hcode
    rw [hreads.target] at hx
    cases hx
    exact Option.some.inj hcode
  have hvalue : h.piece.source.result = .portIn port := by
    obtain ⟨x, hx, hcode, _⟩ := h.simple_at (k := v) (by omega) (by omega)
    rw [h.piece.value_at] at hcode
    rw [hport] at hx
    cases hx
    exact Option.some.inj hcode
  obtain ⟨op, hop, hinstr⟩ := Flat.exists_of_codeOf_getElem? (m.final_of_simple hport rfl (by nofun))
  obtain ⟨mid, offset, pools, next, hmid, hsame, hoffset, _, hanchor⟩ := m.visited hop
  have hpassed : v ∈ m.framing.visit.passed := m.mem_passed.mpr ⟨j, t, var, hreads⟩
  obtain ⟨u, t', var', hreads', hfind⟩ := m.passed_offset hpassed hmid
  obtain ⟨hu, ht', _⟩ := h.assign_unique (k := v) (by omega) (by omega) hreads'.assign (.inr rfl)
  rw [hu, ht'] at hreads'
  obtain ⟨_, _, rfl⟩ := hreads.unique hreads'
  have hnone : offset = none := by
    rw [← hsame, hinstr] at hoffset
    have hcontains : m.framing.visit.passed.contains v = true := List.contains_iff_mem.mpr hpassed
    simp only [Storage.Visit.offset, hcontains, if_true] at hoffset
    cases hoffset
    rfl
  rw [hnone, Option.getD_none] at hanchor
  obtain ⟨address, haddress, habsolute⟩ := m.addressOf?_of_scope hfind hanchor
  have hown : m.writing.own? v = some (.register, scene.address var) := by
    have heq : scene.address var = address := by rw [hscene, addressOf, haddress, Option.getD_some]
    rw [heq]
    exact (Writing.own?_eq_some (w := m.writing) hop).mpr ⟨by rw [hinstr]; rfl, habsolute⟩
  refine h.computed_of_direct hscene rfl hown (.inl ⟨htarget, rfl, by rw [hvalue]; rfl⟩) fun state => ?_
  have hgone : m.look t = some .removed := by
    obtain ⟨_, hremoved, _⟩ := l.portsPassed.gone j t v var
      (by have := (List.getElem?_eq_some_iff.mp h.live).1; simpa [codeOf] using this) hreads
    obtain ⟨old, hold, _⟩ := Flat.exists_of_codeOf_getElem? hreads.target
    rw [hold] at hremoved
    rw [m.look_eq, Flat.codeOf_getElem? hremoved]
    rfl
  obtain ⟨first, hfirst, hfirstGone⟩ := Flat.exists_of_codeOf_getElem? hgone
  obtain ⟨last, hlast, hlastGone⟩ := Flat.exists_of_codeOf_getElem? (m.removed_of_readsPort hreads)
  rw [h.written_pair hfirst hlast]
  simp only [Writing.opLines, hfirstGone, hlastGone]
  rfl

/-- **A comparison whose outcome is a variable.** -/
theorem computed_of_comparison {cell : File × Nat} {var : Var} (hown : m.writing.own? v = some cell)
    (haddress : m.addressOf? var = some cell.2) (hassign : m.look j = some (.assign none .bit t v))
    (htarget : m.look t = some (.bit var)) {test : Model.CompareOp} {kind : Width} {lhs rhs : Nat}
    (hcompare : m.look v = some (.compare test kind lhs rhs)) : h.Computed scene := by
  obtain ⟨hv, ht, hj⟩ := h.value_index
  have hlive := m.simple_of_codeOf_final hassign (by nofun)
  rw [h.live] at hlive
  cases hlive
  have hresult : h.piece.place.result = .bit var := by
    obtain ⟨x, hx, hcode, _⟩ := h.simple_at (k := t) (by omega) (by omega)
    rw [h.piece.target_at] at hcode
    rw [m.simple_of_codeOf_final htarget (by nofun)] at hx
    cases hx
    exact Option.some.inj hcode
  obtain ⟨op, hop, hinstr⟩ := Flat.exists_of_codeOf_getElem? hcompare
  obtain ⟨first, hfirst, hbit⟩ := Flat.exists_of_codeOf_getElem? htarget
  obtain ⟨last, hlast, hlastInstr⟩ := Flat.exists_of_codeOf_getElem? hassign
  obtain ⟨hfile, hoffset⟩ := (Writing.own?_eq_some (w := m.writing) hop).mp hown
  rw [hinstr] at hfile
  have hscope : scene.address var = cell.2 := by rw [hscene, addressOf, haddress, Option.getD_some]
  refine h.computed_of_direct hscene rfl hown (.inr ⟨hresult, ?_⟩) fun state => ?_
  · exact Prod.ext (Option.some.inj hfile).symm hscope.symm
  · have hnamed := h.named_at hfirst
    unfold Writing.Named at hnamed
    rw [hbit] at hnamed
    have hplaced : first.offset = .absolute cell.2 := by rw [hnamed.1, ← hscene, hscope]
    have hcopy : (m.writing.opLines j last).Writes [.blank] () :=
      Writing.copy_blank (w := m.writing) hop (by rw [hinstr]; rfl) hoffset hlastInstr hfirst hplaced
    have hbare : (m.writing.opLines t first).lines = [] := by
      rw [Writing.opLines, hbit]
      rfl
    rw [h.written_pair hfirst hlast, hbare, hcopy.lines_eq]
    rfl

/-- **The lines of an assignment compute it.**  The three ways in which a value can get to its
variable are told apart by where the allocation put the value. -/
theorem computed : h.Computed scene := by
  by_cases hport : ∃ var, ReadsPort m.simple.body j t v var
  · obtain ⟨var, hreads⟩ := hport
    exact h.computed_of_readsPort hscene hreads
  · have hport : ∀ var, ¬ReadsPort m.simple.body j t v var := fun var hreads => hport ⟨var, hreads⟩
    by_cases hdirect : ∃ cell, m.writing.own? v = some cell ∧ m.Direct j t v cell.2
    · obtain ⟨cell, hown, var, haddress, hreads | ⟨hassign, htarget, test, kind, lhs, rhs, hcompare⟩⟩ :=
        hdirect
      · exact absurd hreads (hport var)
      · exact h.computed_of_comparison hscene hown haddress hassign htarget hcompare
    · exact h.computed_of_stored hscene (fun cell hown hd => hdirect ⟨cell, hown, hd⟩) hport

end Live

end Stages.Member

end Stackless
