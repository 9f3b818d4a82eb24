import Stackless.Model.Construct
import Stackless.Proofs.MarkerNames
import Stackless.Proofs.Readings
import Stackless.Proofs.Stages

/-!
# Flattening keeps the course of statements

However a statement is nested, a run over its code takes its course: it performs the
same primitive statements, tests the same conditions, and comes to where the statement
leads.  `Lowers` says this of a piece of code with notes, wherever the piece stands;
there is one lemma for each way in which a statement becomes code, and
`Flattens.lowers` puts them together.

A loop that is cut off keeps a run busy for at least as many moves as it may make
rounds.  So a function that goes on for ever has endless runs, and from that and from
the fact that runs are determined the other directions follow
(`Reading.follows_of_tracks`).
-/

namespace Stackless.Flat

open Model (Stmt Expr Interpretation Deed Outcome Course course courseAll courseLocated courseElse
  course_branch repeated)

/-- How a statement is left that is nothing but a `break` or a `continue`. -/
def LoopExit.outcome : LoopExit → Outcome
  | .breakLoop => .broke
  | .continueLoop => .continued

section Trees

variable {σ : Type}

/-- Blocks around a `break` or a `continue` make no difference. -/
theorem course_of_loopExit? {stmt : Stmt} {exit : LoopExit} (h : loopExit? stmt = some exit)
    (i : Interpretation σ) (rounds : Nat) (state : σ) :
    course i rounds stmt state = ⟨exit.outcome, state, []⟩ := by
  refine loopExit?_induction (P := fun stmt exit => course i rounds stmt state = ⟨exit.outcome, state, []⟩)
    ?_ ?_ (fun position stmt exit ih => ?_) h
  · rw [course]
    rfl
  · rw [course]
    rfl
  · rw [course, courseAll, courseLocated, ih]
    cases exit with
    | breakLoop | continueLoop => rfl

theorem course_of_isPrimitive {stmt : Stmt} (h : isPrimitive stmt = true) (i : Interpretation σ)
    (rounds : Nat) (state : σ) :
    course i rounds stmt state = ⟨.done, i.perform stmt state, [.performed stmt]⟩ := by
  cases stmt with
  | block | branch | loop | breakLoop | continueLoop | ret => cases h
  | _ => simp only [course]

/-- Two courses that come to an end one after the other. -/
theorem outcome_andThen {c : Course σ} {f : σ → Course σ} (h : (c.andThen f).outcome = .done) :
    c.outcome = .done ∧ (f c.state).outcome = .done := by
  obtain ⟨outcome, state, deeds⟩ := c
  cases outcome with
  | done => exact ⟨rfl, h⟩
  | broke | continued | returned | cut => cases h

end Trees

namespace Reading

variable {σ : Type} {r : Reading σ}

/-- A piece of code stands in a reading, with its notes, inside a loop whose markers are
there. -/
structure Places (r : Reading σ) (loop : Option LoopMarkers) (start : Nat)
    (code : List Instruction) (notes : List (Option Note)) : Prop where
  code : Stands (codeOf r.body) start code
  notes : Stands r.notes start notes
  distinct : Distinct r.body
  pos : 1 ≤ start
  loop : ∀ markers, loop = some markers → ∃ top bottom,
    markerIndex? r.body markers.top = some top ∧ markerIndex? r.body markers.bottom = some bottom

namespace Places

variable {loop : Option LoopMarkers} {start : Nat} {xs ys : List Instruction}
  {notes notes' : List (Option Note)}

theorem left (h : r.Places loop start (xs ++ ys) (notes ++ notes')) : r.Places loop start xs notes :=
  ⟨(stands_append.mp h.code).1, (stands_append.mp h.notes).1, h.distinct, h.pos, h.loop⟩

theorem right (h : r.Places loop start (xs ++ ys) (notes ++ notes'))
    (hlength : notes.length = xs.length) : r.Places loop (start + xs.length) ys notes' := by
  have hnotes := (stands_append.mp h.notes).2
  rw [hlength] at hnotes
  have hpos := h.pos
  exact ⟨(stands_append.mp h.code).2, hnotes, h.distinct, by omega, h.loop⟩

theorem at_start {x : Instruction} {note : Option Note}
    (h : r.Places loop start (x :: xs) (note :: notes)) :
    flow r.body start = moveOf (fun target => markerIndex? r.body target.marker) start x ∧
      r.noteAt start = note :=
  ⟨flow_eq_moveOf (stands_cons.mp h.code).1, noteAt_eq (stands_cons.mp h.notes).1⟩

theorem tail {x : Instruction} {note : Option Note}
    (h : r.Places loop start (x :: xs) (note :: notes)) : r.Places loop (start + 1) xs notes := by
  have hpos := h.pos
  exact ⟨(stands_cons.mp h.code).2, (stands_cons.mp h.notes).2, h.distinct, by omega, h.loop⟩

theorem marker {name : String} {note : Option Note}
    (h : r.Places loop start (.marker name :: xs) (note :: notes)) :
    markerIndex? r.body name = some start :=
  h.distinct.markerIndex?_eq (marks_iff.mpr ⟨h.pos, (stands_cons.mp h.code).1⟩)

theorem pass {name : String} {note : Option Note}
    (h : r.Places loop start (.marker name :: xs) (note :: notes)) (state : σ) :
    r.Comes 1 start state (start + 1) state [] :=
  .go h.at_start.1 state

/-- A run follows a jump to a marker. -/
theorem jump {target : Target} {note : Option Note} {marker : Nat}
    (h : r.Places loop start (.jump target :: xs) (note :: notes))
    (hmarker : markerIndex? r.body target.marker = some marker) (state : σ) :
    r.Comes 1 start state (marker + 1) state [] := by
  apply Comes.go
  rw [h.at_start.1]
  simp only [moveOf, hmarker]

/-- A `break` or `continue` leads to a marker of the innermost loop. -/
theorem exit {exit : LoopExit} {target : Target} (h : r.Places loop start xs notes)
    (htarget : exit.target loop = .ok target) :
    ∃ marker, markerIndex? r.body target.marker = some marker ∧
      ∀ next, r.Lands next loop exit.outcome (marker + 1) := by
  cases loop with
  | none => cases htarget
  | some markers =>
      obtain ⟨top, bottom, htop, hbottom⟩ := h.loop markers rfl
      cases exit with
      | breakLoop =>
          cases htarget
          exact ⟨bottom, hbottom, fun _ => ⟨markers, bottom, rfl, hbottom, rfl⟩⟩
      | continueLoop =>
          cases htarget
          exact ⟨top, htop, fun _ => ⟨markers, top, rfl, htop, rfl⟩⟩

end Places

end Reading

/-- **Code tests a condition** and branches to a target: to its marker if the outcome is as
expected, or else to what follows. -/
structure Tests (ctx : Context) (start : Nat) (condition : Expr) (expected : Bool) (target : Target)
    (code : List Instruction) (notes : List (Option Note)) : Prop where
  annotates : Annotates ctx start code notes
  comes : ∀ {σ : Type} {r : Reading σ} {loop : Option LoopMarkers} {marker : Nat},
    r.Places loop start code notes → markerIndex? r.body target.marker = some marker →
    ∀ state, r.Comes 1 start state
      (if r.meaning.holds condition state = expected then marker + 1 else start + code.length)
      state [.tested condition (r.meaning.holds condition state)]

/-- The value of a condition without a leading *not*, and a branch that is turned around if
there was one. -/
theorem tests_of_evaluate {ctx : Context} {start : Nat} {condition : Expr} {value : Evaluation}
    (h : evaluate ctx start (polarity condition).1 = .ok value) (expected : Bool)
    (target : Target) :
    Tests ctx start condition (expected ^^ (polarity condition).2) target
      (value.code ++ [.branch expected (value.ref start) target])
      (List.replicate value.code.length none ++ [some (.test condition)]) := by
  have hinner := (evaluate_computes _ h).inner
  refine ⟨.complete hinner ⟨value, expected, target, h, rfl, rfl⟩, ?_⟩
  intro σ r loop marker hplaces hmarker state
  have hfirst := hplaces.left
  have hbefore := Reading.Comes.inner hfirst.code hfirst.notes hinner state
  obtain ⟨hmove, hnote⟩ := (hplaces.right List.length_replicate).at_start
  simp only [moveOf, hmarker] at hmove
  have htest := Reading.Comes.test hmove hnote state
  rw [List.length_append, List.length_singleton, ← Nat.add_assoc]
  exact (hbefore.trans htest).weaken (by omega)

theorem isSilent_of_mem_singleton {instruction : Instruction} (h : instruction.isSilent = true) :
    ∀ x ∈ [instruction], x.isSilent = true := by
  intro x hx
  rw [List.mem_singleton.mp hx]
  exact h

/-- A jump in front of a marker does nothing. -/
theorem annotates_join {ctx : Context} (start : Nat) (target : Target) (name : String) :
    Annotates ctx start [.jump target, .marker name] [none, none] := by
  refine .unnoted fun x hx => ?_
  rcases List.mem_cons.mp hx with rfl | hx
  · rfl
  · exact isSilent_of_mem_singleton rfl x hx

/-- **Code takes the course of a statement**, wherever it stands. -/
structure Lowers (ctx : Context) (loop : Option LoopMarkers) (start : Nat) (stmt : Stmt)
    (code : List Instruction) (notes : List (Option Note)) : Prop where
  annotates : Annotates ctx start code notes
  carries : ∀ {σ : Type} {r : Reading σ}, r.Places loop start code notes →
    ∀ rounds state, r.Carries rounds start (start + code.length) loop state
      (course r.meaning rounds stmt state)

namespace Lowers

variable {ctx : Context} {loop : Option LoopMarkers} {start : Nat} {stmt stmt' : Stmt}
  {own own' : Option Position} {condition : Expr} {head code code' : List Instruction}
  {headNotes notes notes' : List (Option Note)}

theorem nil : Lowers ctx loop start (.block []) [] [] := by
  refine ⟨.unnoted nofun, fun _ rounds state => ?_⟩
  rw [course, courseAll]
  exact ⟨start, .refl start state, rfl⟩

/-- Statements one after another. -/
theorem cons {rest : List (Located Stmt)} (hfirst : Lowers ctx loop start stmt code notes)
    (hrest : Lowers ctx loop (start + code.length) (.block rest) code' notes') :
    Lowers ctx loop start (.block (⟨own, stmt⟩ :: rest)) (code ++ code') (notes ++ notes') := by
  refine ⟨hfirst.annotates.append hrest.annotates, fun hplaces rounds state => ?_⟩
  rw [course, courseAll, courseLocated, List.length_append, ← Nat.add_assoc]
  apply Reading.Carries.andThen (hfirst.carries hplaces.left rounds state)
  intro state'
  have hcarries := hrest.carries (hplaces.right hfirst.annotates.length_eq) rounds state'
  rw [course] at hcarries
  exact hcarries

/-- A primitive statement, or a return. -/
theorem simple (hsimple : isSimple stmt = true) (h : simpleCode ctx start stmt = .ok code) :
    ∃ notes, Lowers ctx loop start stmt code notes := by
  obtain ⟨inner, last, rfl, hinner, hlast⟩ := simpleCode_split hsimple h
  have hannotates : Annotates ctx start (inner ++ [last])
      (List.replicate inner.length none ++ [some (.statement stmt)]) :=
    .complete hinner ⟨hsimple, h⟩
  refine ⟨_, hannotates, fun {σ r} hplaces rounds state => ?_⟩
  have hfirst := hplaces.left
  have hbefore := Reading.Comes.inner hfirst.code hfirst.notes hinner state
  obtain ⟨hmove, hnote⟩ := (hplaces.right List.length_replicate).at_start
  rcases hlast with ⟨⟨value, rfl⟩, hreturn⟩ | ⟨hprimitive, hdeed⟩
  · have hstop : flow r.body (start + inner.length) = .stop := by
      rw [hmove]
      cases last with
      | ret => rfl
      | _ => cases hreturn
    rw [course]
    exact ⟨_, hbefore, hnote, hstop⟩
  · rw [moveOf_of_isDeed hdeed] at hmove
    have hdone := Reading.Comes.perform hmove hnote state
    rw [course_of_isPrimitive hprimitive]
    refine ⟨_, (hbefore.trans hdone).weaken (Nat.zero_le _), ?_⟩
    rw [List.length_append, List.length_singleton, ← Nat.add_assoc]
    rfl

/-- A `break` or a `continue`. -/
theorem jump {exit : LoopExit} {target : Target} (h : loopExit? stmt = some exit)
    (htarget : exit.target loop = .ok target) : Lowers ctx loop start stmt [.jump target] [none] := by
  refine ⟨.unnoted (isSilent_of_mem_singleton rfl), fun hplaces rounds state => ?_⟩
  obtain ⟨marker, hmarker, hlands⟩ := hplaces.exit htarget
  rw [course_of_loopExit? h]
  refine ⟨marker + 1, (hplaces.jump hmarker state).weaken ?_, hlands _⟩
  cases exit with
  | breakLoop => exact Nat.zero_le 1
  | continueLoop => exact Nat.le_refl 1

/-- **A conditional `break` or `continue`** is a single branch; what is to be done
otherwise follows. -/
theorem exit {alternative : Option (Located Stmt)} {exit : LoopExit} {target : Target}
    (hhead : Tests ctx start condition true target head headNotes)
    (h : loopExit? stmt = some exit) (htarget : exit.target loop = .ok target)
    (hother : ∀ {σ : Type} (i : Interpretation σ) rounds state,
      courseElse i rounds alternative state = course i rounds stmt' state)
    (helse : Lowers ctx loop (start + head.length) stmt' code notes) :
    Lowers ctx loop start (.branch condition ⟨own, stmt⟩ alternative) (head ++ code)
      (headNotes ++ notes) := by
  refine ⟨hhead.annotates.append helse.annotates, ?_⟩
  intro σ r hplaces rounds state
  obtain ⟨marker, hmarker, hlands⟩ := hplaces.exit htarget
  have htest := hhead.comes hplaces.left hmarker state
  rw [course_branch, hother, courseLocated, course_of_loopExit? h]
  cases hholds : r.meaning.holds condition state with
  | true =>
      rw [hholds, if_pos rfl] at htest
      refine ⟨marker + 1, htest.weaken ?_, hlands _⟩
      cases exit with
      | breakLoop => exact Nat.zero_le 1
      | continueLoop => exact Nat.le_refl 1
  | false =>
      rw [hholds, if_neg Bool.false_ne_true] at htest
      have hcarries := helse.carries (hplaces.right hhead.annotates.length_eq) rounds state
      rw [List.length_append, ← Nat.add_assoc]
      exact hcarries.after htest

/-- **A branch without an else part** jumps over its body. -/
theorem choose {skip : String} (hhead : Tests ctx start condition false ⟨skip, none⟩ head headNotes)
    (hbody : Lowers ctx loop (start + head.length) stmt code notes) :
    Lowers ctx loop start (.branch condition ⟨own, stmt⟩ none) (head ++ code ++ [.marker skip])
      (headNotes ++ notes ++ [none]) := by
  have hannotates := hhead.annotates.append hbody.annotates
  refine ⟨hannotates.append (.unnoted (isSilent_of_mem_singleton rfl)), ?_⟩
  intro σ r hplaces rounds state
  have hlast := hplaces.right hannotates.length_eq
  have htest := hhead.comes hplaces.left.left hlast.marker state
  rw [course_branch, courseLocated, List.length_append, List.length_singleton, ← Nat.add_assoc]
  cases hholds : r.meaning.holds condition state with
  | true =>
      rw [hholds, if_neg Bool.false_ne_true.symm] at htest
      have hcarries := hbody.carries (hplaces.left.right hhead.annotates.length_eq) rounds state
      rw [Nat.add_assoc, ← List.length_append] at hcarries
      exact (hcarries.thenGo hlast.pass).after htest
  | false =>
      rw [hholds, if_pos rfl] at htest
      exact ⟨_, htest.weaken (Nat.zero_le 1), rfl⟩

/-- **A branch with an else part** jumps over the one side or over the other. -/
theorem chooseElse {skip exit : String}
    (hhead : Tests ctx start condition false ⟨skip, none⟩ head headNotes)
    (hbody : Lowers ctx loop (start + head.length) stmt code notes)
    (helse : Lowers ctx loop (start + head.length + code.length + 2) stmt' code' notes') :
    Lowers ctx loop start (.branch condition ⟨own, stmt⟩ (some ⟨own', stmt'⟩))
      (head ++ code ++ [.jump ⟨exit, none⟩, .marker skip] ++ code' ++ [.marker exit])
      (headNotes ++ notes ++ [none, none] ++ notes' ++ [none]) := by
  have hannotates := hhead.annotates.append hbody.annotates
  have hjoined := hannotates.append (annotates_join _ ⟨exit, none⟩ skip)
  have hhere : start + head.length + code.length + 2 = start +
      (head ++ code ++ [Instruction.jump ⟨exit, none⟩, .marker skip]).length := by
    simp only [List.length_append, List.length_cons, List.length_nil]
    omega
  rw [hhere] at helse
  have hall := hjoined.append helse.annotates
  refine ⟨hall.append (.unnoted (isSilent_of_mem_singleton rfl)), ?_⟩
  intro σ r hplaces rounds state
  have hexit := hplaces.right hall.length_eq
  have hjump := hplaces.left.left.right hannotates.length_eq
  have htest := hhead.comes hplaces.left.left.left.left hjump.tail.marker state
  rw [course_branch, courseLocated, courseElse, courseLocated, List.length_append,
    List.length_singleton, ← Nat.add_assoc]
  cases hholds : r.meaning.holds condition state with
  | true =>
      rw [hholds, if_neg Bool.false_ne_true.symm] at htest
      have hcarries := hbody.carries (hplaces.left.left.left.right hhead.annotates.length_eq)
        rounds state
      rw [Nat.add_assoc, ← List.length_append] at hcarries
      exact (hcarries.thenGo (hjump.jump hexit.marker)).after htest
  | false =>
      rw [hholds, if_pos rfl] at htest
      have hcarries := helse.carries (hplaces.left.right hjoined.length_eq) rounds state
      rw [Nat.add_assoc, ← List.length_append] at hcarries
      have hskip : start + (head ++ code).length + 1 + 1 = start +
          (head ++ code ++ [Instruction.jump ⟨exit, none⟩, .marker skip]).length := by
        simp only [List.length_append, List.length_cons, List.length_nil]
        omega
      rw [hskip] at htest
      exact (hcarries.thenGo hexit.pass).after htest

/-- **Rounds of a loop.**  Each round comes to the jump back or goes to the start by itself,
so it takes at least one move. -/
theorem carries_repeated {σ : Type} {r : Reading σ} {markers : LoopMarkers} {top bottom : Nat}
    {rounds behind : Nat} {round : σ → Course σ}
    (htop : markerIndex? r.body markers.top = some top)
    (hbottom : markerIndex? r.body markers.bottom = some bottom)
    (hround : ∀ state, r.Carries rounds (top + 1) behind (some markers) state (round state))
    (hback : ∀ state, r.Comes 1 behind state (top + 1) state []) (n : Nat) (hle : n ≤ rounds) :
    ∀ state, r.Carries n (top + 1) (bottom + 1) loop state (repeated round n state) := by
  induction n with
  | zero =>
      intro state
      exact ⟨top + 1, .refl _ _, trivial⟩
  | succ n ih =>
      intro state
      obtain ⟨index, hcomes, hlands⟩ := hround state
      have hgo : ∀ {state' : σ} {deeds : List Deed}, r.Comes 1 (top + 1) state (top + 1) state' deeds →
          r.Carries (n + 1) (top + 1) (bottom + 1) loop state
            ((repeated round n state').after deeds) := by
        intro state' deeds hfirst
        obtain ⟨last, hrest, hlast⟩ := ih (by omega) state'
        refine ⟨last, (hfirst.trans hrest).weaken ?_, hlast⟩
        show Reading.leastMoves (n + 1) (repeated round n state').outcome ≤ _
        cases (repeated round n state').outcome with
        | cut => exact Nat.le_of_eq (Nat.add_comm n 1)
        | _ => exact Nat.le_add_left _ _
      rw [repeated]
      generalize round state = c at hcomes hlands
      obtain ⟨outcome, state', deeds⟩ := c
      cases outcome with
      | done =>
          cases hlands
          have hboth := hcomes.trans (hback state')
          rw [List.append_nil] at hboth
          exact hgo (hboth.weaken (Nat.le_add_left 1 _))
      | continued =>
          obtain ⟨markers', marker, hloop, hmarker, rfl⟩ := hlands
          cases hloop
          rw [htop] at hmarker
          cases hmarker
          exact hgo hcomes
      | broke =>
          obtain ⟨markers', marker, hloop, hmarker, rfl⟩ := hlands
          cases hloop
          rw [hbottom] at hmarker
          cases hmarker
          exact ⟨bottom + 1, hcomes, rfl⟩
      | returned value => exact ⟨index, hcomes, hlands⟩
      | cut => exact ⟨index, hcomes.weaken hle, trivial⟩

/-- **A loop** goes back to its start behind its body. -/
theorem looping {outer : Option LoopMarkers} {top bottom : String}
    (hbody : Lowers ctx (some ⟨top, bottom⟩) (start + 1) stmt code notes) :
    Lowers ctx outer start (.loop ⟨own, stmt⟩)
      ([.marker top] ++ code ++ [.jump ⟨top, none⟩, .marker bottom])
      ([none] ++ notes ++ [none, none]) := by
  have htop : Annotates ctx start [.marker top] [none] := .unnoted (isSilent_of_mem_singleton rfl)
  have hfirst := htop.append hbody.annotates
  refine ⟨hfirst.append (annotates_join _ _ _), ?_⟩
  intro σ r hplaces rounds state
  have hentry := hplaces.left.left
  have hend := hplaces.right hfirst.length_eq
  have hinside := hplaces.left.right rfl
  have hround : ∀ state, r.Carries rounds (start + 1) (start + 1 + code.length)
      (some ⟨top, bottom⟩) state (course r.meaning rounds stmt state) := by
    refine hbody.carries ⟨hinside.code, hinside.notes, hinside.distinct, hinside.pos, ?_⟩ rounds
    rintro markers hmarkers
    cases hmarkers
    exact ⟨start, _, hentry.marker, hend.tail.marker⟩
  have hbehind : start + ([Instruction.marker top] ++ code).length = start + 1 + code.length := by
    rw [List.length_append, List.length_singleton, Nat.add_assoc]
  rw [hbehind] at hend
  have hrepeated : r.Carries rounds (start + 1) (start + 1 + code.length + 1 + 1) outer state
      (repeated (course r.meaning rounds stmt) rounds state) :=
    carries_repeated hentry.marker hend.tail.marker hround (hend.jump hentry.marker) rounds
      (Nat.le_refl _) state
  have hnext : start + ([Instruction.marker top] ++ code ++
      [Instruction.jump ⟨top, none⟩, .marker bottom]).length = start + 1 + code.length + 1 + 1 := by
    rw [List.length_append, ← Nat.add_assoc, hbehind]
    rfl
  have hcourse : course r.meaning rounds (.loop ⟨own, stmt⟩) state =
      repeated (course r.meaning rounds stmt) rounds state := by
    rw [course]
    rfl
  rw [hnext, hcourse]
  exact hrepeated.after (hentry.pass state)

end Lowers

/-- **Flattening keeps the course of statements.**  By mutual induction on the rules of flattening,
one case for each kind of statement, with the loop of the context for breaks and continues. -/
theorem Flattens.lowers {ctx : Context} {loop : Option LoopMarkers} {position : Option Position}
    {start markers final : Nat} {stmt : Stmt} {ops : List Op}
    (h : Flattens ctx loop position start markers stmt ops final) :
    ∃ notes, Lowers ctx loop start stmt (codeOf ops) notes := by
  have hbehind : ∀ {value : Evaluation} {start : Nat} (user : Instruction),
      value.next start + 1 = start + (value.code ++ [user]).length := by
    intro value start user
    rw [List.length_append, List.length_singleton, value.next_eq, Nat.add_assoc]
  induction h with
  | nil => exact ⟨[], .nil⟩
  | cons _ _ ihfirst ihothers =>
      obtain ⟨notes, hfirst⟩ := ihfirst
      obtain ⟨notes', hothers⟩ := ihothers
      rw [← length_codeOf] at hothers
      rw [codeOf_append]
      exact ⟨_, .cons hfirst hothers⟩
  | @exit _ _ _ _ condition _ _ _ _ target hvalue hexit htarget =>
      have hhead := tests_of_evaluate hvalue (!(polarity condition).2) target
      rw [Bool.not_xor_self] at hhead
      rw [codeOf_opsAt, ← List.append_nil (_ ++ [_])]
      refine ⟨_, .exit hhead hexit htarget (fun _ _ _ => ?_) .nil⟩
      rw [course, courseAll]
      rfl
  | @exitElse _ _ _ _ condition _ _ _ _ _ _ target _ _ hvalue hexit htarget _ ih =>
      obtain ⟨notes, helse⟩ := ih
      have hhead := tests_of_evaluate hvalue (!(polarity condition).2) target
      rw [Bool.not_xor_self] at hhead
      rw [hbehind] at helse
      rw [codeOf_append, codeOf_opsAt]
      exact ⟨_, .exit hhead hexit htarget (fun _ _ _ => by rw [courseElse, courseLocated]) helse⟩
  | @choose _ _ _ markers condition _ _ _ _ _ hvalue _ _ ih =>
      obtain ⟨notes, hbody⟩ := ih
      have hhead := tests_of_evaluate hvalue (polarity condition).2
        ⟨markerName ctx.function.label (markers + 1), none⟩
      rw [Bool.xor_self] at hhead
      rw [hbehind] at hbody
      simp only [codeOf_append, codeOf_opsAt]
      exact ⟨_, .choose hhead hbody⟩
  | @chooseElse _ _ _ markers condition _ _ _ _ _ body _ _ _ hvalue _ _ _ ihbody ihothers =>
      obtain ⟨notes, hbody⟩ := ihbody
      obtain ⟨notes', helse⟩ := ihothers
      have hhead := tests_of_evaluate hvalue (polarity condition).2
        ⟨markerName ctx.function.label (markers + 1), none⟩
      rw [Bool.xor_self] at hhead
      rw [hbehind] at hbody
      rw [hbehind, ← length_codeOf body] at helse
      simp only [codeOf_append, codeOf_opsAt]
      exact ⟨_, .chooseElse hhead hbody helse⟩
  | loop _ ih =>
      obtain ⟨notes, hbody⟩ := ih
      simp only [codeOf_append, codeOf_opsAt]
      exact ⟨_, .looping hbody⟩
  | breakLoop htarget =>
      rw [codeOf_opsAt]
      exact ⟨_, .jump rfl htarget⟩
  | continueLoop htarget =>
      rw [codeOf_opsAt]
      exact ⟨_, .jump rfl htarget⟩
  | simple hsimple hcode =>
      rw [codeOf_opsAt]
      exact Lowers.simple hsimple hcode

/-- What ends in a return is decided by the last op. -/
theorem endsInReturn_append_singleton (ops : List Op) (op : Op) :
    endsInReturn (ops ++ [op]) = op.instruction.isReturn := by
  unfold endsInReturn
  rw [List.getLast?_concat]

/-- A body that ends in a return does so in its last piece that is not empty. -/
theorem endsInReturn_append {xs ys : List Op} (h : endsInReturn (xs ++ ys) = true) :
    endsInReturn ys = true ∨ endsInReturn xs = true := by
  unfold endsInReturn at h ⊢
  rw [List.getLast?_append] at h
  cases hlast : ys.getLast? with
  | none =>
      rw [hlast, Option.none_or] at h
      exact .inr h
  | some op =>
      rw [hlast, Option.some_or] at h
      exact .inl h

/-- **Statements outside of loops whose code ends in a return do not come to their end.**
So the return behind the statements is left out only where nothing gets to it. -/
theorem Flattens.not_done {ctx : Context} {loop : Option LoopMarkers} {position : Option Position}
    {start markers final : Nat} {stmt : Stmt} {ops : List Op}
    (h : Flattens ctx loop position start markers stmt ops final) (hloop : loop = none)
    (hreturn : endsInReturn ops = true) {σ : Type} (i : Interpretation σ) (rounds : Nat) (state : σ) :
    (course i rounds stmt state).outcome ≠ .done := by
  induction h generalizing state with
  | nil => cases hreturn
  | @cons _ _ _ _ _ stmt rest _ _ _ _ _ _ ihfirst ihothers =>
      rw [course, courseAll, courseLocated]
      intro hdone
      obtain ⟨hfirst, hrest⟩ := outcome_andThen hdone
      rcases endsInReturn_append hreturn with hreturn | hreturn
      · have hothers := ihothers hloop hreturn (course i rounds stmt state).state
        rw [course] at hothers
        exact hothers hrest
      · exact ihfirst hloop hreturn state hfirst
  | exit _ _ htarget | exitElse _ _ htarget =>
      subst hloop
      cases htarget
  | choose | chooseElse =>
      rw [show opsAt _ [_] = [_] from rfl, endsInReturn_append_singleton] at hreturn
      cases hreturn
  | loop =>
      rw [show opsAt _ [_, _] = [_] ++ [_] from rfl, ← List.append_assoc,
        endsInReturn_append_singleton] at hreturn
      cases hreturn
  | breakLoop htarget | continueLoop htarget =>
      subst hloop
      cases htarget
  | simple hsimple hcode =>
      obtain ⟨inner, last, rfl, _, ⟨⟨value, rfl⟩, _⟩ | ⟨_, hdeed⟩⟩ := simpleCode_split hsimple hcode
      · rw [course]
        intro hdone
        cases hdone
      · unfold opsAt at hreturn
        rw [List.map_append, List.map_singleton, endsInReturn_append_singleton] at hreturn
        cases last with
        | ret => cases hdeed
        | _ => cases hreturn

/-- Runs over the entry and the statements of a function take its courses, if something
behind the statements ends those that come to it. -/
theorem Lowers.tracks {ctx : Context} {label : String} {body : List Op}
    {code tail : List Instruction} {notes tailNotes : List (Option Note)}
    (h : Lowers ctx none 1 (.block ctx.function.body) code notes) (hdistinct : Distinct body)
    (hbody : codeOf body = [.marker label] ++ code ++ tail) {σ : Type} {r : Reading σ}
    (hcode : codeOf r.body = codeOf body) (hnotes : r.notes = [none] ++ notes ++ tailNotes)
    {rounds : Nat} {state : σ}
    (hdone : (courseAll r.meaning rounds ctx.function.body state).outcome = .done →
      r.EndsAt .implicit (1 + code.length) ∧ flow r.body (1 + code.length) = .stop) :
    r.Tracks ctx.function rounds state := by
  have hstands : Stands (codeOf r.body) 0 ([.marker label] ++ code) := by
    rw [hcode, hbody]
    exact (stands_append.mp (stands_self _)).1
  have hnoted : Stands r.notes 0 ([none] ++ notes) := by
    rw [hnotes]
    exact (stands_append.mp (stands_self _)).1
  obtain ⟨hentry, hstands⟩ := stands_cons.mp hstands
  have hgo : r.Comes 1 0 state 1 state [] := .go (flow_eq_moveOf hentry) state
  have hplaces : r.Places none 1 code notes :=
    ⟨hstands, (stands_cons.mp hnoted).2, hdistinct.of_codeOf_eq hcode, Nat.le_refl 1, nofun⟩
  have hcarries := h.carries hplaces rounds state
  rw [course] at hcarries
  exact Reading.tracks_of_carries (hcarries.after hgo) hdone

/-- **The runs of a flat body take the courses of its function.**  The entry stands before all
statements and a return behind them, and in between `Flattens.lowers` applies. -/
theorem tracks_of_flatBody {ctx : Context} {body : List Op} (h : flatBody ctx = .ok body) :
    ∃ notes, Annotates ctx 0 (codeOf body) notes ∧
      ∀ {σ : Type} {r : Reading σ}, codeOf r.body = codeOf body → r.notes = notes →
        ∀ rounds state, r.Tracks ctx.function rounds state := by
  have hdistinct := distinct_of_flatBody h
  obtain ⟨ops, markers, hflattens, rfl⟩ := flatBody_eq_ok h
  obtain ⟨notes, hlowers⟩ := hflattens.lowers
  have hentry : Annotates ctx 0 [.marker ctx.function.label] [none] :=
    .unnoted (isSilent_of_mem_singleton rfl)
  have hstatements := hentry.append hlowers.annotates
  by_cases hreturn : endsInReturn (opsAt none [.marker ctx.function.label] ++ ops) = true
  · -- nothing comes to the end of the statements
    rw [if_pos hreturn] at hdistinct ⊢
    have hbody : codeOf (opsAt none [.marker ctx.function.label] ++ ops ++ []) =
        [.marker ctx.function.label] ++ codeOf ops ++ [] := by
      rw [codeOf_append, codeOf_append, codeOf_opsAt]
      rfl
    refine ⟨[none] ++ notes ++ [], ?_, fun {σ r} hcode hnotes rounds state => ?_⟩
    · rw [hbody, List.append_nil, List.append_nil]
      exact hstatements
    · refine hlowers.tracks hdistinct hbody hcode hnotes fun hdone => ?_
      have hends : endsInReturn ops = true := by
        rcases endsInReturn_append hreturn with hends | hends
        · exact hends
        · cases hends
      have hnot := hflattens.not_done rfl hends r.meaning rounds state
      rw [course] at hnot
      exact absurd hdone hnot
  · rw [if_neg hreturn] at hdistinct ⊢
    have hbody : codeOf (opsAt none [.marker ctx.function.label] ++ ops ++ opsAt none [.ret none]) =
        [.marker ctx.function.label] ++ codeOf ops ++ [.ret none] := by
      rw [codeOf_append, codeOf_append, codeOf_opsAt, codeOf_opsAt]
    have hlast : Annotates ctx (0 + ([Instruction.marker ctx.function.label] ++ codeOf ops).length)
        ([] ++ [.ret none]) (List.replicate 0 none ++ [some .fallOff]) := by
      refine .complete (fun x hx => ?_) ⟨rfl, rfl⟩
      cases hx
    refine ⟨[none] ++ notes ++ [some .fallOff], ?_, fun {σ r} hcode hnotes rounds state => ?_⟩
    · rw [hbody]
      exact hstatements.append hlast
    · refine hlowers.tracks hdistinct hbody hcode hnotes fun _ => ?_
      have hend : 0 + ([Instruction.marker ctx.function.label] ++ codeOf ops).length =
          1 + (codeOf ops).length := by
        rw [List.length_append, List.length_singleton, Nat.zero_add]
      have hret : (codeOf r.body)[1 + (codeOf ops).length]? = some (.ret none) := by
        rw [hcode, hbody, ← hend]
        exact stands_singleton.mp (stands_append.mp (stands_self _)).2
      have hnote : r.notes[1 + (codeOf ops).length]? = some (some .fallOff) := by
        have hlength : 0 + ([none] ++ notes).length = 1 + (codeOf ops).length := by
          rw [hstatements.length_eq, hend]
        rw [hnotes, ← hlength]
        exact stands_singleton.mp (stands_append.mp (stands_self _)).2
      refine ⟨⟨Reading.noteAt_eq hnote, ?_⟩, flow_eq_moveOf hret⟩
      rw [← length_codeOf r.body, hcode, hbody, List.length_append, ← hend, Nat.zero_add]
      rfl

/-- **A flat body keeps the course of a function.**  There are true notes on the body with
which, whatever primitive statements and conditions mean, its runs follow the
function. -/
def KeepsCourse (ctx : Context) (body : List Op) : Prop :=
  ∃ notes, Annotates ctx 0 (codeOf body) notes ∧
    ∀ (σ : Type) (i : Interpretation σ) (state : σ),
      Reading.Follows ⟨body, notes, i⟩ ctx.function state

/-- The flat form of a function keeps its course. -/
theorem keepsCourse_of_ofModel {model : Model.Program} {f : Model.Function} {g : Function}
    (h : Function.ofModel model f = .ok g) : KeepsCourse ⟨model, f⟩ g.body := by
  obtain ⟨body, hbody, hg⟩ := bind_eq_ok.mp h
  cases hg
  obtain ⟨notes, hannotates, htracks⟩ := tracks_of_flatBody hbody
  have hcode := codeOf_withLastUses body
  refine ⟨notes, hcode.symm ▸ hannotates, fun σ i state => ?_⟩
  exact Reading.follows_of_tracks fun rounds => htracks hcode rfl rounds state

/-- Every function of a program that was flattened was flattened, and there is one of its
label. -/
theorem ofModel_of_mem {model : Model.Program} {flat : Program}
    (h : Program.ofModel model = .ok flat) {m : Model.Module} (hm : m ∈ model.modules.values)
    {f : Model.Function} (hf : f ∈ m.functions.values) :
    (∃ g, Function.ofModel model f = .ok g) ∧ ∃ g, flat.find? f.label = some g := by
  have hfold : ∀ (fs : List Model.Function) (start result : Program),
      fs.foldlM (fun flat f => do
        let function ← Function.ofModel model f
        return flat.insert f.label function) start = .ok result →
      (∀ label g, start.find? label = some g → ∃ g', result.find? label = some g') ∧
      ∀ f ∈ fs, (∃ g, Function.ofModel model f = .ok g) ∧ ∃ g, result.find? f.label = some g := by
    intro fs
    induction fs with
    | nil =>
        intro start result hrun
        cases hrun
        exact ⟨fun _ g hg => ⟨g, hg⟩, by simp⟩
    | cons f fs ih =>
        intro start result hrun
        rw [List.foldlM_cons] at hrun
        obtain ⟨next, hstep, hrest⟩ := bind_eq_ok.mp hrun
        obtain ⟨function, hfunction, hnext⟩ := bind_eq_ok.mp hstep
        cases hnext
        obtain ⟨hkept, hothers⟩ := ih _ _ hrest
        constructor
        · intro label g hg
          by_cases hlabel : label = f.label
          · subst hlabel
            exact hkept _ function (Table.find?_insert_self start f.label function)
          · exact hkept label g (by rw [Table.find?_insert, if_neg hlabel]; exact hg)
        · intro f' hf'
          rcases List.mem_cons.mp hf' with rfl | hf'
          · exact ⟨⟨function, hfunction⟩,
              hkept _ function (Table.find?_insert_self start f'.label function)⟩
          · exact hothers f' hf'
  exact (hfold _ _ _ h).2 f (List.mem_flatMap.mpr ⟨m, hm, hf⟩)

/-- **Flattening keeps structured control flow.**  If a program can be flattened, every
function of it was flattened to a body that keeps its course, and what stands under a
label is the flat form of a function of that label. -/
theorem flattening_keeps_courses {model : Model.Program} {flat : Program}
    (h : Program.ofModel model = .ok flat) :
    (∀ m ∈ model.modules.values, ∀ f ∈ m.functions.values,
      (∃ g, Function.ofModel model f = .ok g ∧ KeepsCourse ⟨model, f⟩ g.body) ∧
      ∃ g, flat.find? f.label = some g) ∧
    ∀ label g, flat.find? label = some g →
      ∃ m ∈ model.modules.values, ∃ f ∈ m.functions.values, f.label = label ∧
        Function.ofModel model f = .ok g ∧ KeepsCourse ⟨model, f⟩ g.body := by
  constructor
  · intro m hm f hf
    obtain ⟨⟨g, hg⟩, hfound⟩ := ofModel_of_mem h hm hf
    exact ⟨⟨g, hg, keepsCourse_of_ofModel hg⟩, hfound⟩
  · intro label g hfound
    obtain ⟨m, hm, f, hf, hlabel, hg⟩ := exists_of_find?_ofModel h hfound
    exact ⟨m, hm, f, hf, hlabel, hg, keepsCourse_of_ofModel hg⟩

/-- Loops in one another, left in the middle by single branches and by a return. -/
def nestedLoops : Model.Function :=
  let a : Expr := .var "a"
  let inner : Stmt := .forever [
    .ifElse (.unary .logicalNot a) (.sequence [.breakLoop]) (some .nop),
    .ifElse (.var "b") .continueLoop none,
    .pause]
  ({ label := "demo.main" } : Model.Function).addSymbol "a" .flag |>.addSymbol "b" .flag
    |>.withBody [.forever [inner, .ifElse a (.ret none) (some .halt)]]

/-- The loops as a program of their own. -/
def nestedLoopsProgram : Model.Program where
  name := "demo"
  modules := Table.empty.insert "demo" (({} : Model.Module).addFunction nestedLoops)

/-- Flattening the loops keeps their course. -/
theorem flattening_keeps_courses_nestedLoops :
    ∃ flat, Program.ofModel nestedLoopsProgram = .ok flat ∧
      (∃ g, Function.ofModel nestedLoopsProgram nestedLoops = .ok g ∧
        KeepsCourse ⟨nestedLoopsProgram, nestedLoops⟩ g.body) ∧
      ∃ g, flat.find? "demo.main" = some g := by
  have hsome : (Program.ofModel nestedLoopsProgram).toOption.isSome = true := by decide +kernel
  cases hflat : Program.ofModel nestedLoopsProgram with
  | error e =>
      rw [hflat] at hsome
      cases hsome
  | ok flat =>
      obtain ⟨hall, _⟩ := flattening_keeps_courses hflat
      exact ⟨flat, rfl, hall _ List.mem_cons_self nestedLoops List.mem_cons_self⟩

end Stackless.Flat
