import Stackless.Proofs.Flattening

/-!
# What statement trees do

A statement tree is carried out in the usual way: the statements of a block in order,
one side of a branch, the body of a loop over and over, until a `break`, a `continue`
or a `return` leaves it.  What the primitive statements do to a state, and which
conditions hold in it, is left open (`Interpretation`).

The **course** of a statement is how it is left, the state then, and the deeds on the
way: the primitive statements performed and the conditions tested, in order.  So that
every statement has a course, loops are cut off after a number of rounds; a function
goes on for ever if it is cut off however many rounds its loops may make
(`Function.Endless`).
-/

namespace Stackless.Model

/-- What primitive statements do to a state, and which conditions hold in it. All that is asked of
it is that a negated condition holds just where the condition does not. -/
structure Interpretation (σ : Type) where
  perform : Stmt → σ → σ
  holds : Expr → σ → Bool
  holds_not : ∀ condition state,
    holds (.unary .logicalNot condition) state = !holds condition state

/-- A primitive statement that was performed, or a condition that was tested. -/
inductive Deed where
  | performed (stmt : Stmt)
  | tested (condition : Expr) (outcome : Bool)

/-- How a statement is left. -/
inductive Outcome where
  /-- At its end. -/
  | done
  | broke
  | continued
  | returned (value : Option Expr)
  /-- Not at all: a loop in it was cut off. -/
  | cut

/-- What a statement does: how it is left, the state behind it, and all that was performed and
tested on the way. -/
structure Course (σ : Type) where
  outcome : Outcome
  state : σ
  deeds : List Deed

section Courses

variable {σ : Type}

/-- A course after some deeds. -/
def Course.after (deeds : List Deed) (c : Course σ) : Course σ :=
  { c with deeds := deeds ++ c.deeds }

/-- A course, and the next one if it came to its end. -/
def Course.andThen (c : Course σ) (next : σ → Course σ) : Course σ :=
  match c.outcome with
  | .done => (next c.state).after c.deeds
  | _ => c

/-- Rounds of a loop, at most so many. A loop that is left by a break is done, and one that is
neither left nor out of rounds goes round again. -/
def repeated (round : σ → Course σ) : (rounds : Nat) → σ → Course σ
  | 0, state => ⟨.cut, state, []⟩
  | rounds + 1, state =>
    let c := round state
    match c.outcome with
    | .done | .continued => (repeated round rounds c.state).after c.deeds
    | .broke => { c with outcome := .done }
    | .returned _ | .cut => c

mutual

/-- The course of a statement from a state, when loops are cut off after some rounds. -/
def course (i : Interpretation σ) (rounds : Nat) : Stmt → σ → Course σ
  | .block body, state => courseAll i rounds body state
  | .branch condition consequent alternative, state =>
    let outcome := i.holds condition state
    let chosen :=
      if outcome then courseLocated i rounds consequent state
      else
        match alternative with
        | none => ⟨.done, state, []⟩
        | some alternative => courseLocated i rounds alternative state
    chosen.after [.tested condition outcome]
  | .loop body, state => repeated (courseLocated i rounds body) rounds state
  | .breakLoop, state => ⟨.broke, state, []⟩
  | .continueLoop, state => ⟨.continued, state, []⟩
  | .ret value, state => ⟨.returned value, state, []⟩
  | stmt, state => ⟨.done, i.perform stmt state, [.performed stmt]⟩

/-- The course of a statement does not depend on its position. -/
def courseLocated (i : Interpretation σ) (rounds : Nat) : Located Stmt → σ → Course σ
  | ⟨_, stmt⟩, state => course i rounds stmt state

/-- The course of statements one after another. -/
def courseAll (i : Interpretation σ) (rounds : Nat) : List (Located Stmt) → σ → Course σ
  | [], state => ⟨.done, state, []⟩
  | stmt :: rest, state => (courseLocated i rounds stmt state).andThen (courseAll i rounds rest)

end

/-- The course of what is done when a condition does not hold, if anything. -/
def courseElse (i : Interpretation σ) (rounds : Nat) : Option (Located Stmt) → σ → Course σ
  | none, state => ⟨.done, state, []⟩
  | some alternative, state => courseLocated i rounds alternative state

/-- The course of a branch: the test, and then one of its sides. -/
theorem course_branch (i : Interpretation σ) (rounds : Nat) (condition : Expr)
    (consequent : Located Stmt) (alternative : Option (Located Stmt)) (state : σ) :
    course i rounds (.branch condition consequent alternative) state =
      (if i.holds condition state then courseLocated i rounds consequent state
        else courseElse i rounds alternative state).after
        [.tested condition (i.holds condition state)] := by
  cases alternative with
  | none =>
      rw [course]
      rfl
  | some alternative =>
      rw [course]
      rfl

end Courses

/-- How a function returns: by a `return`, or at the end of its statements. -/
inductive Ending where
  | explicit (value : Option Expr)
  | implicit

/-- How the statements of a function are left when it returns. -/
def Ending.outcome : Ending → Outcome
  | .explicit value => .returned value
  | .implicit => .done

/-- Different ways to return leave the statements in different ways. -/
theorem Ending.outcome_inj {ending ending' : Ending} (h : ending.outcome = ending'.outcome) :
    ending = ending' := by
  cases ending with
  | explicit value =>
      cases ending' with
      | explicit value' =>
          cases h
          rfl
      | implicit => cases h
  | implicit =>
      cases ending' with
      | explicit value' => cases h
      | implicit => rfl

theorem Ending.outcome_ne_cut (ending : Ending) : ending.outcome ≠ .cut := by
  cases ending with
  | explicit | implicit => nofun

namespace Function

variable {σ : Type}

/-- A function returns in some way with a state, after some deeds, if only its loops are given
enough rounds. -/
def Ends (f : Function) (i : Interpretation σ) (state : σ) (ending : Ending) (state' : σ)
    (deeds : List Deed) : Prop :=
  ∃ rounds, courseAll i rounds f.body state = ⟨ending.outcome, state', deeds⟩

/-- A function goes on for ever: however many rounds its loops are given, its course is cut off
before its end. -/
def Endless (f : Function) (i : Interpretation σ) (state : σ) : Prop :=
  ∀ rounds, (courseAll i rounds f.body state).outcome = .cut

/-- The first deeds of a function, which it does whether it comes to an end behind them or not. With
more rounds there are only more of them. -/
def Does (f : Function) (i : Interpretation σ) (state : σ) (deeds : List Deed) : Prop :=
  ∃ rounds, deeds <+: (courseAll i rounds f.body state).deeds

end Function

end Stackless.Model
