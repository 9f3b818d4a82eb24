import Stackless.Model.Construct
import Stackless.Proofs.Flattening
import Stackless.Proofs.Passes
import Stackless.Proofs.Stages

/-!
# Code and errors have the position of their statement

A statement does some things on its own account and leaves others to the statements in it.  Each
thing that it does itself is a **site**: the code of a condition, a jump, a marker.  A site knows the
statements that are being flattened when its turn comes, and its position is that of the
**innermost** of them that has one.  `sites` lists the sites of a statement in order.

* `nested_sites` — what a site knows is right: the statements contain each other;
* `Laid` — sites gave code one after another, each at its own position; `Flattens.laid` says that
  this is what flattening does;
* `Stuck` — some sites gave their code and the next one fails; `stuckAt_of_flatten` says that a
  flattening that fails does so there, with the position of that site;
* `Laid.not_stuck`, `Stuck.unique` — it can end in one way only, so that both are exact.

One statement is never flattened itself: a `break` or `continue` that is all that an `if` does when
its condition holds.  The `if` looks into it, and if there is no loop to leave, the error has the
position of the `if`, whatever the position of the `break`.

`positions_innermost` puts this together for programs.
-/

namespace Stackless.Flat

open Model (Expr Stmt)

/-- What a statement does on its own account. -/
inductive Task where
  /-- The code of a condition. -/
  | test (condition : Expr)
  /-- The code of a statement that is neither a jump nor made of other statements. -/
  | simple (stmt : Stmt)
  /-- Asking for the innermost loop, to leave it or to go round, on behalf of statements that are
  only looked into, from the innermost outwards; is there a loop? -/
  | exit (inLoop : Bool) (seen : List (Located Stmt))
  | fork
  | jump
  | mark

/-- A task in its place. -/
structure Site where
  task : Task
  /-- The statements that are being flattened, from the innermost outwards. -/
  around : List (Located Stmt)

/-- The statements in the innermost one around it that a site is about, where the innermost one only
looks into them. -/
def Site.seen (site : Site) : List (Located Stmt) :=
  match site.task with
  | .exit _ seen => seen
  | _ => []

/-- The statements that contain what a site is about, from the innermost outwards. -/
def Site.enclosing (site : Site) : List (Located Stmt) :=
  site.seen ++ site.around

/-- The position of the innermost statement that has one. -/
def innermost (around : List (Located Stmt)) : Option Position :=
  around.findSome? Located.position

/-- The statements in a statement that is nothing but a `break` or a `continue`. -/
def inside : Stmt → List (Located Stmt)
  | .block [⟨own, stmt⟩] => inside stmt ++ [⟨own, stmt⟩]
  | _ => []

/-- The sites of an `if` that is a `break` or `continue` when its condition holds: it asks for the
loop of a statement that it only looks into. -/
def sitesOfExit (inLoop : Bool) (around : List (Located Stmt)) (condition : Expr)
    (consequent : Located Stmt) : List Site :=
  [⟨.test condition, around⟩, ⟨.exit inLoop (inside consequent.value ++ [consequent]), around⟩,
    ⟨.fork, around⟩]

mutual

/-- The sites of a statement, the innermost of those around, inside a loop or not. -/
def sites (inLoop : Bool) (around : List (Located Stmt)) : Stmt → List Site
  | .block body => sitesAll inLoop around body
  | .branch condition consequent none =>
    if (loopExit? consequent.value).isSome then sitesOfExit inLoop around condition consequent
    else
      [⟨.test condition, around⟩, ⟨.fork, around⟩] ++
        (sitesLocated inLoop around consequent ++ [⟨.mark, around⟩])
  | .branch condition consequent (some alternative) =>
    if (loopExit? consequent.value).isSome then
      sitesOfExit inLoop around condition consequent ++ sitesLocated inLoop around alternative
    else
      [⟨.test condition, around⟩, ⟨.fork, around⟩] ++
        (sitesLocated inLoop around consequent ++ ([⟨.jump, around⟩, ⟨.mark, around⟩] ++
          (sitesLocated inLoop around alternative ++ [⟨.mark, around⟩])))
  | .loop body =>
    [⟨.mark, around⟩] ++
      (sitesLocated true around body ++ [⟨.jump, around⟩, ⟨.mark, around⟩])
  | .breakLoop | .continueLoop => [⟨.exit inLoop [], around⟩, ⟨.jump, around⟩]
  | stmt => [⟨.simple stmt, around⟩]

/-- The sites of a statement inside those around. -/
def sitesLocated (inLoop : Bool) (around : List (Located Stmt)) : Located Stmt → List Site
  | ⟨own, stmt⟩ => sites inLoop (⟨own, stmt⟩ :: around) stmt

/-- The sites of statements one after another. -/
def sitesAll (inLoop : Bool) (around : List (Located Stmt)) : List (Located Stmt) → List Site
  | [] => []
  | stmt :: rest => sitesLocated inLoop around stmt ++ sitesAll inLoop around rest

end

/-- The sites of an `if` whose condition leaves or repeats a loop. -/
theorem sites_branch_exit {inLoop : Bool} {around : List (Located Stmt)} {condition : Expr}
    {consequent : Located Stmt} {exit : LoopExit} (h : loopExit? consequent.value = some exit)
    (alternative : Option (Located Stmt)) :
    sites inLoop around (.branch condition consequent alternative) =
      sitesOfExit inLoop around condition consequent ++
        alternative.elim [] (sitesLocated inLoop around) := by
  cases alternative with
  | none => simp only [sites, h, Option.isSome_some, if_true, Option.elim_none, List.append_nil]
  | some other => simp only [sites, h, Option.isSome_some, if_true, Option.elim_some]

/-- The sites of any other `if`. -/
theorem sites_branch {inLoop : Bool} {around : List (Located Stmt)} {condition : Expr}
    {consequent : Located Stmt} (h : loopExit? consequent.value = none)
    (alternative : Option (Located Stmt)) :
    sites inLoop around (.branch condition consequent alternative) =
      [⟨.test condition, around⟩, ⟨.fork, around⟩] ++
        (sitesLocated inLoop around consequent ++
          alternative.elim [⟨.mark, around⟩] fun other =>
            [⟨.jump, around⟩, ⟨.mark, around⟩] ++
              (sitesLocated inLoop around other ++ [⟨.mark, around⟩])) := by
  cases alternative with
  | none => simp only [sites, h, Option.isSome_none, Bool.false_eq_true, if_false, Option.elim_none]
  | some other =>
      simp only [sites, h, Option.isSome_none, Bool.false_eq_true, if_false, Option.elim_some]

/-- The sites of a function. -/
def sitesOf (f : Model.Function) : List Site :=
  sitesAll false [] f.body

/-- The statements directly in a statement. -/
def children : Stmt → List (Located Stmt)
  | .block body => body
  | .branch _ consequent alternative => consequent :: alternative.toList
  | .loop body => [body]
  | _ => []

/-- Each of these statements stands directly in the next, and the last one in a body. -/
inductive Nested (body : List (Located Stmt)) : List (Located Stmt) → Prop
  | top {stmt} : stmt ∈ body → Nested body [stmt]
  | within {inner outer rest} :
      inner ∈ children outer.value → Nested body (outer :: rest) →
      Nested body (inner :: outer :: rest)

section Nesting

variable {body : List (Located Stmt)}

/-- A statement that is looked into contains what is seen there. -/
theorem nested_inside {own : Option Position} {stmt : Stmt} {around : List (Located Stmt)}
    (h : Nested body (⟨own, stmt⟩ :: around)) :
    Nested body (inside stmt ++ ⟨own, stmt⟩ :: around) := by
  fun_induction inside stmt generalizing own around with
  | case1 own' stmt ih =>
      rw [List.append_assoc]
      exact ih (.within (List.mem_singleton_self _) h)
  | case2 stmt _ => exact h

mutual

/-- **The statements around a site contain each other.**  By recursion on the statement, with the
statements around it as far as they are known. -/
theorem nested_sites :
    ∀ (stmt : Stmt) {own : Option Position} {inLoop : Bool} {around : List (Located Stmt)},
      Nested body (⟨own, stmt⟩ :: around) →
      ∀ site ∈ sites inLoop (⟨own, stmt⟩ :: around) stmt, Nested body site.enclosing
  | .block stmts, own, inLoop, around, h => by
    rw [sites]
    have hstmts : ∀ stmt ∈ stmts, Nested body (stmt :: ⟨own, .block stmts⟩ :: around) :=
      fun stmt hstmt => Nested.within hstmt h
    exact nested_sitesAll stmts hstmts
  | .branch condition consequent alternative, own, inLoop, around, h => by
    have hconsequent : Nested body
        (consequent :: ⟨own, .branch condition consequent alternative⟩ :: around) :=
      .within List.mem_cons_self h
    cases hexit : loopExit? consequent.value with
    | some exit =>
        rw [sites_branch_exit hexit, sitesOfExit]
        simp only [List.forall_mem_append, List.forall_mem_cons]
        refine ⟨⟨h, ?_, h, nofun⟩, ?_⟩
        · rw [Site.enclosing, Site.seen, List.append_assoc]
          exact nested_inside hconsequent
        · cases alternative with
          | none => exact nofun
          | some other =>
              exact nested_sitesLocated other (.within (List.mem_cons_of_mem _ List.mem_cons_self) h)
    | none =>
        rw [sites_branch hexit]
        simp only [List.forall_mem_append, List.forall_mem_cons]
        refine ⟨⟨h, h, nofun⟩, nested_sitesLocated consequent hconsequent, ?_⟩
        cases alternative with
        | none => exact List.forall_mem_singleton.mpr h
        | some other =>
            simp only [Option.elim_some, List.forall_mem_append, List.forall_mem_cons]
            exact ⟨⟨h, h, nofun⟩, nested_sitesLocated other
              (.within (List.mem_cons_of_mem _ List.mem_cons_self) h), h, nofun⟩
  | .loop stmt, own, inLoop, around, h => by
    have hstmt : Nested body (stmt :: ⟨own, .loop stmt⟩ :: around) :=
      .within (List.mem_singleton_self _) h
    rw [sites]
    simp only [List.forall_mem_append, List.forall_mem_cons]
    exact ⟨⟨h, nofun⟩, nested_sitesLocated stmt hstmt, h, h, nofun⟩
  | .breakLoop, own, inLoop, around, h | .continueLoop, own, inLoop, around, h => by
    rw [sites]
    simp only [List.forall_mem_cons]
    exact ⟨h, h, nofun⟩
  | .assign .., _, _, _, h | .call .., _, _, _, h | .ret _, _, _, _, h | .timer _, _, _, _, h
  | .level _, _, _, _, h | .halt, _, _, _, h | .pause, _, _, _, h | .reset, _, _, _, h
  | .restart, _, _, _, h | .nop, _, _, _, h => by
    exact List.forall_mem_singleton.mpr h

theorem nested_sitesLocated :
    ∀ (stmt : Located Stmt) {inLoop : Bool} {around : List (Located Stmt)},
      Nested body (stmt :: around) →
      ∀ site ∈ sitesLocated inLoop around stmt, Nested body site.enclosing
  | ⟨own, stmt⟩, inLoop, around, h => by
    rw [sitesLocated]
    exact nested_sites stmt h

theorem nested_sitesAll :
    ∀ (stmts : List (Located Stmt)) {inLoop : Bool} {around : List (Located Stmt)},
      (∀ stmt ∈ stmts, Nested body (stmt :: around)) →
      ∀ site ∈ sitesAll inLoop around stmts, Nested body site.enclosing
  | [], inLoop, around, h => by
    rw [sitesAll]
    exact nofun
  | stmt :: rest, inLoop, around, h => by
    obtain ⟨hstmt, hrest⟩ := List.forall_mem_cons.mp h
    rw [sitesAll]
    exact List.forall_mem_append.mpr
      ⟨nested_sitesLocated stmt hstmt, nested_sitesAll rest hrest⟩

end

end Nesting

/-- The code that a task gives from an index on. -/
def Task.Gives (ctx : Context) (start : Nat) : Task → List Instruction → Prop
  | .test condition, code =>
    ∃ value, evaluate ctx start (polarity condition).1 = .ok value ∧ code = value.code
  | .simple stmt, code => simpleCode ctx start stmt = .ok code
  | .exit inLoop _, code => inLoop = true ∧ code = []
  | .fork, code => ∃ when ref target, code = [.branch when ref target]
  | .jump, code => ∃ target, code = [.jump target]
  | .mark, code => ∃ name, code = [.marker name]

/-- What a task can fail with at an index. -/
def Task.Fails (ctx : Context) (start : Nat) : Task → CompileError → Prop
  | .test condition, e => evaluate ctx start (polarity condition).1 = .error e
  | .simple stmt, e => simpleCode ctx start stmt = .error e
  | .exit inLoop _, e => inLoop = false ∧ e = .loopControl
  | _, _ => False

/-- Code of one position. -/
def codeAt (position : Option Position) (code : List Instruction) : List (Located Instruction) :=
  code.map fun instruction => ⟨position, instruction⟩

/-- The instructions of ops, with their positions. -/
def located (ops : List Op) : List (Located Instruction) :=
  ops.map fun op => ⟨op.position, op.instruction⟩

/-- Sites gave code from an index on, each at its position. The sites of a statement without errors
are used up in order, and their code makes up all of its code. -/
inductive Laid (ctx : Context) : Nat → List Site → List (Located Instruction) → Prop
  | nil {start} : Laid ctx start [] []
  | cons {start site code rest out} :
      site.task.Gives ctx start code → Laid ctx (start + code.length) rest out →
      Laid ctx start (site :: rest) (codeAt (innermost site.around) code ++ out)

/-- Sites gave code from an index on until one of them failed. The code up to there fixes the index
at which the failing site was tried, on which its error may depend. -/
inductive Stuck (ctx : Context) : Nat → List Site → Site → CompileError → Prop
  | here {start site rest e} : site.task.Fails ctx start e → Stuck ctx start (site :: rest) site e
  | later {start site code rest failing e} :
      site.task.Gives ctx start code → Stuck ctx (start + code.length) rest failing e →
      Stuck ctx start (site :: rest) failing e

section Located

/-- Ops of one position are code of that position. -/
theorem located_opsAt (position : Option Position) (code : List Instruction) :
    located (opsAt position code) = codeAt position code := by
  rw [located, opsAt, codeAt, List.map_map]
  rfl

theorem located_append (ops others : List Op) :
    located (ops ++ others) = located ops ++ located others :=
  List.map_append

theorem length_located (ops : List Op) : (located ops).length = ops.length :=
  List.length_map _

theorem codeAt_append (position : Option Position) (code others : List Instruction) :
    codeAt position (code ++ others) = codeAt position code ++ codeAt position others :=
  List.map_append

theorem length_codeAt (position : Option Position) (code : List Instruction) :
    (codeAt position code).length = code.length :=
  List.length_map _

/-- Last uses change no position. -/
theorem located_withLastUses (body : List Op) : located (withLastUses body) = located body := by
  apply List.ext_getElem?
  intro i
  rw [located, located, List.getElem?_map, List.getElem?_map, withLastUses_getElem?]
  cases body[i]? with
  | none => rfl
  | some op => rfl

/-- A statement has the position of its own, or else that of those around. -/
theorem innermost_cons (own : Option Position) (stmt : Stmt) (around : List (Located Stmt)) :
    innermost (⟨own, stmt⟩ :: around) = own.or (innermost around) := by
  cases own <;> rfl

end Located

section Sites

variable {ctx : Context} {start : Nat} {xs ys : List Site} {out out' : List (Located Instruction)}
  {site other : Site} {e e' : CompileError}

/-- Code of sites, and of more sites behind them. -/
theorem Laid.append (hxs : Laid ctx start xs out) (hys : Laid ctx (start + out.length) ys out') :
    Laid ctx start (xs ++ ys) (out ++ out') := by
  induction hxs with
  | nil => exact hys
  | cons hgives _ ih =>
      rw [List.append_assoc]
      refine .cons hgives (ih ?_)
      rwa [List.length_append, length_codeAt, ← Nat.add_assoc] at hys

theorem Laid.single {task : Task} {around : List (Located Stmt)} {code : List Instruction}
    (h : task.Gives ctx start code) :
    Laid ctx start [⟨task, around⟩] (codeAt (innermost around) code) := by
  have hone : Laid ctx start [⟨task, around⟩] (codeAt (innermost around) code ++ []) :=
    .cons h .nil
  rwa [List.append_nil] at hone

/-- Sites that are stuck stay so, whatever comes behind. -/
theorem Stuck.append_left (h : Stuck ctx start xs site e) : Stuck ctx start (xs ++ ys) site e := by
  induction h with
  | here hfails => exact .here hfails
  | later hgives _ ih => exact .later hgives ih

/-- Sites behind those that gave their code. -/
theorem Stuck.behind (hxs : Laid ctx start xs out)
    (hys : Stuck ctx (start + out.length) ys site e) : Stuck ctx start (xs ++ ys) site e := by
  induction hxs with
  | nil => exact hys
  | cons hgives _ ih =>
      refine .later hgives (ih ?_)
      rwa [List.length_append, length_codeAt, ← Nat.add_assoc] at hys

/-- A task that gives code does not fail. -/
theorem Task.not_fails {task : Task} {code : List Instruction} (h : task.Gives ctx start code) :
    ¬task.Fails ctx start e := by
  intro hfails
  cases task with
  | test condition =>
      obtain ⟨value, hvalue, _⟩ := h
      cases hvalue.symm.trans hfails
  | simple stmt => cases Eq.trans (Eq.symm h) hfails
  | exit inLoop seen => cases h.1.symm.trans hfails.1
  | fork | jump | mark => exact hfails

/-- A task gives code of one length. -/
theorem Task.length_unique {task : Task} {code code' : List Instruction}
    (h : task.Gives ctx start code) (h' : task.Gives ctx start code') :
    code.length = code'.length := by
  cases task with
  | test condition =>
      obtain ⟨value, hvalue, rfl⟩ := h
      obtain ⟨value', hvalue', rfl⟩ := h'
      cases hvalue.symm.trans hvalue'
      rfl
  | simple stmt =>
      cases Eq.trans (Eq.symm h) h'
      rfl
  | exit inLoop seen => rw [h.2, h'.2]
  | fork =>
      obtain ⟨_, _, _, rfl⟩ := h
      obtain ⟨_, _, _, rfl⟩ := h'
      rfl
  | jump | mark =>
      obtain ⟨_, rfl⟩ := h
      obtain ⟨_, rfl⟩ := h'
      rfl

/-- A task fails in one way. -/
theorem Task.fails_unique {task : Task} (h : task.Fails ctx start e)
    (h' : task.Fails ctx start e') : e = e' := by
  cases task with
  | test condition => exact Except.error.inj (Eq.trans (Eq.symm h) h')
  | simple stmt => exact Except.error.inj (Eq.trans (Eq.symm h) h')
  | exit inLoop seen => exact h.2.trans h'.2.symm
  | fork | jump | mark => exact h.elim

/-- **Sites that gave all their code are not stuck.**  A task gives code or fails at an index, and
never does both. -/
theorem Laid.not_stuck (h : Laid ctx start xs out) : ¬Stuck ctx start xs site e := by
  induction h with
  | nil => exact nofun
  | cons hgives _ ih =>
      intro hstuck
      cases hstuck with
      | here hfails => exact Task.not_fails hgives hfails
      | later hgives' hrest =>
          rw [Task.length_unique hgives' hgives] at hrest
          exact ih hrest

/-- **Sites are stuck in one place and for one reason.**  So the error that a program is refused
with, and its position, are those of the first site that fails. -/
theorem Stuck.unique (h : Stuck ctx start xs site e) (h' : Stuck ctx start xs other e') :
    site = other ∧ e = e' := by
  induction h with
  | here hfails =>
      cases h' with
      | here hfails' => exact ⟨rfl, Task.fails_unique hfails hfails'⟩
      | later hgives _ => exact absurd hfails (Task.not_fails hgives)
  | later hgives _ ih =>
      cases h' with
      | here hfails => exact absurd hfails (Task.not_fails hgives)
      | later hgives' hrest =>
          rw [Task.length_unique hgives' hgives] at hrest
          exact ih hrest

/-- Only in search of a loop does a site fail on behalf of statements that are not flattened. -/
theorem Stuck.enclosing_or (h : Stuck ctx start xs site e) :
    site.enclosing = site.around ∨ e = .loopControl := by
  induction h with
  | @here _ site _ _ hfails =>
      obtain ⟨task, around⟩ := site
      cases task with
      | exit inLoop seen => exact .inr hfails.2
      | test | simple | fork | jump | mark => exact .inl rfl
  | later _ _ ih => exact ih

end Sites

section Success

variable {ctx : Context} {loop : Option LoopMarkers} {start : Nat}

/-- Where a `break` or `continue` is granted there is a loop. -/
theorem isSome_of_target {exit : LoopExit} {target : Target} (h : exit.target loop = .ok target) :
    loop.isSome = true := by
  cases loop with
  | none => cases h
  | some markers => rfl

theorem laid_test {condition : Expr} {value : Evaluation} (around : List (Located Stmt))
    (h : evaluate ctx start (polarity condition).1 = .ok value) :
    Laid ctx start [⟨.test condition, around⟩] (codeAt (innermost around) value.code) := by
  have hgives : (Task.test condition).Gives ctx start value.code := ⟨value, h, rfl⟩
  exact .single hgives

theorem laid_fork (around : List (Located Stmt)) (when : Bool) (ref : Nat) (target : Target) :
    Laid ctx start [⟨.fork, around⟩]
      (codeAt (innermost around) [.branch when ref target]) := by
  have hgives : Task.fork.Gives ctx start [.branch when ref target] := ⟨when, ref, target, rfl⟩
  exact .single hgives

theorem laid_jump (around : List (Located Stmt)) (target : Target) :
    Laid ctx start [⟨.jump, around⟩] (codeAt (innermost around) [.jump target]) := by
  have hgives : Task.jump.Gives ctx start [.jump target] := ⟨target, rfl⟩
  exact .single hgives

theorem laid_mark (around : List (Located Stmt)) (name : String) :
    Laid ctx start [⟨.mark, around⟩] (codeAt (innermost around) [.marker name]) := by
  have hgives : Task.mark.Gives ctx start [.marker name] := ⟨name, rfl⟩
  exact .single hgives

theorem laid_exit (around seen : List (Located Stmt)) (h : loop.isSome = true) :
    Laid ctx start [⟨.exit loop.isSome seen, around⟩] [] := by
  have hgives : (Task.exit loop.isSome seen).Gives ctx start [] := ⟨h, rfl⟩
  exact .single hgives

/-- A jump that closes a piece, with the marker behind it. -/
theorem laid_join (around : List (Located Stmt)) (target : Target) (name : String) :
    Laid ctx start [⟨.jump, around⟩, ⟨.mark, around⟩]
      (located (opsAt (innermost around) [.jump target, .marker name])) := by
  rw [located_opsAt]
  exact (laid_jump around target).append (laid_mark around name)

/-- The code of a condition with the branch behind it. -/
theorem laid_branch {condition : Expr} {value : Evaluation} (around : List (Located Stmt))
    (h : evaluate ctx start (polarity condition).1 = .ok value) (when : Bool) (ref : Nat)
    (target : Target) :
    Laid ctx start [⟨.test condition, around⟩, ⟨.fork, around⟩]
      (located (opsAt (innermost around) (value.code ++ [.branch when ref target]))) := by
  rw [located_opsAt, codeAt_append]
  exact (laid_test around h).append (laid_fork around when ref target)

/-- The same, with a loop to be asked for between the two. -/
theorem laid_leave {condition : Expr} {value : Evaluation} (around seen : List (Located Stmt))
    (h : evaluate ctx start (polarity condition).1 = .ok value) (hloop : loop.isSome = true)
    (when : Bool) (ref : Nat) (target : Target) :
    Laid ctx start
      [⟨.test condition, around⟩, ⟨.exit loop.isSome seen, around⟩, ⟨.fork, around⟩]
      (located (opsAt (innermost around) (value.code ++ [.branch when ref target]))) := by
  rw [located_opsAt, codeAt_append]
  exact (laid_test around h).append
    ((laid_exit around seen hloop).append (laid_fork around when ref target))

/-- The first index behind a condition and its branch. -/
theorem next_branch (value : Evaluation) (start : Nat) (position : Option Position)
    (branch : Instruction) :
    start + (located (opsAt position (value.code ++ [branch]))).length = value.next start + 1 := by
  rw [located_opsAt, length_codeAt, List.length_append, List.length_singleton, value.next_eq]
  omega

/-- **Flattening lays the code of each site at its position**, which is that of the innermost
statement around it which has one. -/
theorem Flattens.laid {position : Option Position} {markers final : Nat} {stmt : Stmt}
    {ops : List Op} (h : Flattens ctx loop position start markers stmt ops final) :
    ∀ around, innermost around = position →
      Laid ctx start (sites loop.isSome around stmt) (located ops) := by
  -- one case for each rule; a part starts where the code in front of it ends
  induction h with
  | nil =>
      rintro around rfl
      rw [sites, sitesAll]
      exact .nil
  | cons _ _ ihfirst ihothers =>
      rintro around rfl
      have hothers := ihothers around rfl
      rw [sites, ← length_located] at hothers
      rw [sites, sitesAll, sitesLocated, located_append]
      exact (ihfirst _ (innermost_cons _ _ around)).append hothers
  | exit hvalue hexit htarget =>
      rintro around rfl
      simp only [sites, hexit]
      exact laid_leave around _ hvalue (isSome_of_target htarget) _ _ _
  | exitElse hvalue hexit htarget _ ih =>
      rintro around rfl
      simp only [sites, hexit, sitesLocated, located_append]
      refine (laid_leave around _ hvalue (isSome_of_target htarget) _ _ _).append ?_
      rw [next_branch]
      exact ih _ (innermost_cons _ _ around)
  | choose hvalue hexit _ ih =>
      rintro around rfl
      simp only [sites, hexit, sitesLocated, located_append, List.append_assoc]
      refine (laid_branch around hvalue _ _ _).append (Laid.append ?_ ?_)
      · rw [next_branch]
        exact ih _ (innermost_cons _ _ around)
      · rw [located_opsAt]
        exact laid_mark around _
  | chooseElse hvalue hexit _ _ ihbody ihothers =>
      rintro around rfl
      simp only [sites, hexit, sitesLocated, located_append, List.append_assoc]
      refine (laid_branch around hvalue _ _ _).append
        (Laid.append ?_ ((laid_join around _ _).append (Laid.append ?_ ?_)))
      · rw [next_branch]
        exact ihbody _ (innermost_cons _ _ around)
      · rw [next_branch, length_located, length_located]
        exact ihothers _ (innermost_cons _ _ around)
      · rw [located_opsAt]
        exact laid_mark around _
  | loop _ ih =>
      rintro around rfl
      simp only [sites, sitesLocated, located_append, List.append_assoc]
      refine Laid.append ?_ ((ih _ (innermost_cons _ _ around)).append (laid_join around _ _))
      rw [located_opsAt]
      exact laid_mark around _
  | breakLoop htarget | continueLoop htarget =>
      rintro around rfl
      rw [sites, located_opsAt]
      exact (laid_exit around [] (isSome_of_target htarget)).append (laid_jump around _)
  | @simple _ _ _ _ stmt _ hsimple hcode =>
      rintro around rfl
      rw [located_opsAt]
      cases stmt with
      | block | branch | loop | breakLoop | continueLoop => cases hsimple
      | _ => exact .single hcode

/-- A statement that was flattened is laid out. -/
theorem laid_of_flattenLocated {stmt : Located Stmt} {around : List (Located Stmt)}
    {markers : Nat} {segment : Segment}
    (h : flattenLocated ctx loop (innermost around) start markers stmt = .ok segment) :
    Laid ctx start (sitesLocated loop.isSome around stmt) (located segment.ops) := by
  obtain ⟨own, stmt⟩ := stmt
  rw [flattenLocated] at h
  exact (flattens_of_flatten stmt h).laid _ (innermost_cons own stmt around)

end Success

section Failure

variable {ctx : Context} {loop : Option LoopMarkers} {position : Option Position}
  {start markers : Nat} {xs ys : List Site} {out : List (Located Instruction)}
  {e : Located CompileError}

/-- What is located fails with what it failed with, at that position. -/
theorem locate_eq_error {α : Type} {x : Except CompileError α} :
    locate position x = .error e ↔ ∃ reason, x = .error reason ∧ e = ⟨position, reason⟩ := by
  cases x with
  | ok a =>
      constructor
      · intro h
        cases h
      · rintro ⟨_, h, _⟩
        cases h
  | error reason =>
      constructor
      · intro h
        cases h
        exact ⟨reason, rfl, rfl⟩
      · rintro ⟨_, h, rfl⟩
        cases h
        rfl

/-- One of the sites is stuck, with an error at the position of that site. -/
def StuckAt (ctx : Context) (start : Nat) (xs : List Site) (e : Located CompileError) : Prop :=
  ∃ site, Stuck ctx start xs site e.value ∧ e.position = innermost site.around

theorem StuckAt.append_left (h : StuckAt ctx start xs e) : StuckAt ctx start (xs ++ ys) e := by
  obtain ⟨site, hstuck, hposition⟩ := h
  exact ⟨site, hstuck.append_left, hposition⟩

theorem StuckAt.behind (hxs : Laid ctx start xs out) (h : StuckAt ctx (start + out.length) ys e) :
    StuckAt ctx start (xs ++ ys) e := by
  obtain ⟨site, hstuck, hposition⟩ := h
  exact ⟨site, hstuck.behind hxs, hposition⟩

/-- A task that fails is stuck, at the position of its statement. -/
theorem stuckAt_of_locate {α : Type} {x : Except CompileError α} {task : Task}
    (around : List (Located Stmt))
    (hfails : ∀ {reason}, x = .error reason → task.Fails ctx start reason)
    (h : locate (innermost around) x = .error e) :
    StuckAt ctx start (⟨task, around⟩ :: xs) e := by
  obtain ⟨reason, hreason, rfl⟩ := locate_eq_error.mp h
  exact ⟨⟨task, around⟩, .here (hfails hreason), rfl⟩

theorem stuckAt_test {condition : Expr} (around : List (Located Stmt))
    (h : locate (innermost around) (evaluate ctx start (polarity condition).1) = .error e) :
    StuckAt ctx start (⟨.test condition, around⟩ :: xs) e :=
  stuckAt_of_locate around (fun hfails => hfails) h

/-- Where no loop is found there is none. -/
theorem fails_of_target {exit : LoopExit} {reason : CompileError} (seen : List (Located Stmt))
    (h : exit.target loop = .error reason) : (Task.exit loop.isSome seen).Fails ctx start reason := by
  cases loop with
  | none =>
      cases h
      exact ⟨rfl, rfl⟩
  | some markers => cases exit <;> cases h

mutual

/-- **A flattening that fails is stuck at a site, with an error at its position.** -/
theorem stuckAt_of_flatten :
    ∀ (stmt : Stmt) (around : List (Located Stmt)) {loop : Option LoopMarkers}
      {start markers : Nat},
      flatten ctx loop (innermost around) start markers stmt = .error e →
      StuckAt ctx start (sites loop.isSome around stmt) e
  | .block body, around, loop, start, markers, h => by
    rw [flatten] at h
    rw [sites]
    exact stuckAt_of_flattenAll body around h
  | .branch condition consequent alternative, around, loop, start, markers, h => by
    rw [flatten] at h
    cases hexit : loopExit? consequent.value with
    | some exit =>
        simp only [hexit] at h
        rw [sites_branch_exit hexit]
        rcases bind_eq_error.mp h with h | ⟨value, hvalue, h⟩
        · exact stuckAt_test around h
        have hvalue := locate_eq_ok.mp hvalue
        rcases bind_eq_error.mp h with h | ⟨target, htarget, h⟩
        · exact .append_left (.behind (laid_test around hvalue)
            (stuckAt_of_locate around (fails_of_target _) h))
        have hloop := isSome_of_target (locate_eq_ok.mp htarget)
        cases alternative with
        | none => cases h
        | some other =>
            rcases bind_eq_error.mp h with h | ⟨_, _, h⟩
            · refine .behind (laid_leave around _ hvalue hloop (!(polarity condition).2)
                (value.ref start) target) ?_
              rw [next_branch]
              exact stuckAt_of_flattenLocated other around h
            · cases h
    | none =>
        simp only [hexit] at h
        rw [sites_branch hexit]
        rcases bind_eq_error.mp h with h | ⟨value, hvalue, h⟩
        · exact stuckAt_test around h
        refine .behind (laid_branch around (locate_eq_ok.mp hvalue) (polarity condition).2
          (value.ref start) { marker := markerName ctx.function.label (markers + 1) }) ?_
        rw [next_branch]
        rcases bind_eq_error.mp h with h | ⟨body, hbody, h⟩
        · exact .append_left (stuckAt_of_flattenLocated consequent around h)
        cases alternative with
        | none => cases h
        | some other =>
            rcases bind_eq_error.mp h with h | ⟨_, _, h⟩
            · refine .behind (laid_of_flattenLocated hbody) (.behind (laid_join around
                { marker := markerName ctx.function.label (body.markers + 1) }
                (markerName ctx.function.label (markers + 1))) (.append_left ?_))
              rw [length_located]
              exact stuckAt_of_flattenLocated other around h
            · cases h
  | .loop body, around, loop, start, markers, h => by
    rw [flatten] at h
    rcases bind_eq_error.mp h with h | ⟨_, _, h⟩
    · rw [sites]
      refine .behind (laid_mark around (markerName ctx.function.label (markers + 1))) ?_
      exact .append_left (stuckAt_of_flattenLocated body around h)
    · cases h
  | .breakLoop, around, loop, start, markers, h | .continueLoop, around, loop, start, markers, h => by
    rw [flatten] at h
    rcases bind_eq_error.mp h with h | ⟨_, _, h⟩
    · exact stuckAt_of_locate around (fails_of_target []) h
    · cases h
  | .assign .., around, _, _, _, h | .call .., around, _, _, _, h | .ret _, around, _, _, _, h
  | .timer _, around, _, _, _, h | .level _, around, _, _, _, h | .halt, around, _, _, _, h
  | .pause, around, _, _, _, h | .reset, around, _, _, _, h | .restart, around, _, _, _, h
  | .nop, around, _, _, _, h => by
    simp only [flatten] at h
    rcases bind_eq_error.mp h with h | ⟨_, _, h⟩
    · exact stuckAt_of_locate around id h
    · cases h

theorem stuckAt_of_flattenLocated :
    ∀ (stmt : Located Stmt) (around : List (Located Stmt)) {loop : Option LoopMarkers}
      {start markers : Nat},
      flattenLocated ctx loop (innermost around) start markers stmt = .error e →
      StuckAt ctx start (sitesLocated loop.isSome around stmt) e
  | ⟨own, stmt⟩, around, loop, start, markers, h => by
    rw [flattenLocated, ← innermost_cons own stmt around] at h
    rw [sitesLocated]
    exact stuckAt_of_flatten stmt _ h

theorem stuckAt_of_flattenAll :
    ∀ (body around : List (Located Stmt)) {loop : Option LoopMarkers} {start markers : Nat},
      flattenAll ctx loop (innermost around) start markers body = .error e →
      StuckAt ctx start (sitesAll loop.isSome around body) e
  | [], around, loop, start, markers, h => by cases h
  | stmt :: rest, around, loop, start, markers, h => by
    rw [flattenAll] at h
    rw [sitesAll]
    rcases bind_eq_error.mp h with h | ⟨first, hfirst, h⟩
    · exact .append_left (stuckAt_of_flattenLocated stmt around h)
    · rcases bind_eq_error.mp h with h | ⟨_, _, h⟩
      · refine .behind (laid_of_flattenLocated hfirst) ?_
        rw [length_located]
        exact stuckAt_of_flattenAll rest around h
      · cases h

end

end Failure

section Functions

variable {model : Model.Program} {f : Model.Function} {e : Located CompileError}

/-- A function that became flat is its entry marker, its statements, and a return if they need one. -/
theorem ofModel_eq_ok {g : Function} (h : Function.ofModel model f = .ok g) :
    ∃ segment tail, flattenAll ⟨model, f⟩ none none 1 0 f.body = .ok segment ∧
      located g.body = ⟨none, .marker f.label⟩ :: (located segment.ops ++ tail) ∧
      (tail = [] ∨ tail = [⟨none, .ret none⟩]) := by
  obtain ⟨body, hbody, hg⟩ := bind_eq_ok.mp h
  obtain ⟨segment, hsegment, hbody⟩ := bind_eq_ok.mp hbody
  rw [pure_eq_ok] at hg hbody
  rw [← hg, located_withLastUses, ← hbody]
  split
  · refine ⟨segment, [], hsegment, ?_, .inl rfl⟩
    rw [located_append, List.append_nil]
    rfl
  · refine ⟨segment, [⟨none, .ret none⟩], hsegment, ?_, .inr rfl⟩
    rw [located_append, located_append]
    rfl

/-- A function cannot be flattened exactly if its statements cannot. -/
theorem ofModel_eq_error :
    Function.ofModel model f = .error e ↔
      flattenAll ⟨model, f⟩ none none 1 0 f.body = .error e := by
  have hpure : ∀ {α : Type} {a : α}, (pure a : Except (Located CompileError) α) ≠ .error e := nofun
  constructor
  · intro h
    rcases bind_eq_error.mp h with h | ⟨_, _, h⟩
    · rcases bind_eq_error.mp h with h | ⟨_, _, h⟩
      · exact h
      · exact absurd h hpure
    · exact absurd h hpure
  · intro h
    exact bind_eq_error.mpr (.inl (bind_eq_error.mpr (.inl h)))

/-- The statements of a function that were flattened are laid out. -/
theorem laid_of_flattenAll {segment : Segment}
    (h : flattenAll ⟨model, f⟩ none none 1 0 f.body = .ok segment) :
    Laid ⟨model, f⟩ 1 (sitesOf f) (located segment.ops) := by
  have hlaid := (flattens_of_flattenAll f.body h).laid [] rfl
  rwa [sites] at hlaid

/-- **A function cannot be flattened exactly if it is stuck at one of its sites**, and the error has
the position of that site. -/
theorem ofModel_eq_error_iff :
    Function.ofModel model f = .error e ↔ StuckAt ⟨model, f⟩ 1 (sitesOf f) e := by
  rw [ofModel_eq_error]
  constructor
  · exact fun h => stuckAt_of_flattenAll f.body [] h
  · rintro ⟨site, hstuck, hposition⟩
    cases hflat : flattenAll ⟨model, f⟩ none none 1 0 f.body with
    | ok segment => exact absurd hstuck (laid_of_flattenAll hflat).not_stuck
    | error e' =>
        obtain ⟨site', hstuck', hposition'⟩ := stuckAt_of_flattenAll f.body [] hflat
        obtain ⟨rfl, hvalue⟩ := hstuck.unique hstuck'
        obtain ⟨position, value⟩ := e
        obtain ⟨position', value'⟩ := e'
        cases hvalue
        cases hposition.trans hposition'.symm
        rfl

/-- A function can be flattened exactly if all its sites give code. -/
theorem exists_ofModel_iff :
    (∃ g, Function.ofModel model f = .ok g) ↔ ∃ code, Laid ⟨model, f⟩ 1 (sitesOf f) code := by
  constructor
  · rintro ⟨g, hg⟩
    obtain ⟨segment, _, hsegment, _⟩ := ofModel_eq_ok hg
    exact ⟨_, laid_of_flattenAll hsegment⟩
  · rintro ⟨code, hlaid⟩
    cases hflat : Function.ofModel model f with
    | ok g => exact ⟨g, rfl⟩
    | error e =>
        obtain ⟨site, hstuck, _⟩ := ofModel_eq_error_iff.mp hflat
        exact absurd hstuck hlaid.not_stuck

/-- Steps that fill a table fail where the first of them does. -/
theorem foldlM_insert_eq_error {ε α β : Type} {step : α → Except ε β} {name : α → String} {e : ε} :
    ∀ {xs : List α} {done : Table β},
      xs.foldlM (fun done x => do
        let value ← step x
        return done.insert (name x) value) done = .error e ↔
      ∃ before x after, xs = before ++ x :: after ∧ (∀ y ∈ before, ∃ b, step y = .ok b) ∧
        step x = .error e
  | [], done => by
    constructor
    · exact nofun
    · rintro ⟨before, x, after, h, _⟩
      cases before <;> cases h
  | x :: xs, done => by
    rw [List.foldlM_cons, bind_eq_error]
    constructor
    · rintro (h | ⟨next, hnext, hrest⟩)
      · rcases bind_eq_error.mp h with h | ⟨_, _, h⟩
        · exact ⟨[], x, xs, rfl, nofun, h⟩
        · cases h
      · obtain ⟨b, hb, _⟩ := bind_eq_ok.mp hnext
        obtain ⟨before, y, after, rfl, hbefore, hy⟩ := foldlM_insert_eq_error.mp hrest
        exact ⟨x :: before, y, after, rfl, List.forall_mem_cons.mpr ⟨⟨b, hb⟩, hbefore⟩, hy⟩
    · rintro ⟨before, y, after, hxs, hbefore, hy⟩
      cases before with
      | nil =>
          cases hxs
          exact .inl (bind_eq_error.mpr (.inl hy))
      | cons _ before =>
          cases hxs
          obtain ⟨⟨b, hb⟩, hbefore⟩ := List.forall_mem_cons.mp hbefore
          exact .inr ⟨_, bind_eq_ok.mpr ⟨b, hb, rfl⟩,
            foldlM_insert_eq_error.mpr ⟨before, y, after, rfl, hbefore, hy⟩⟩

/-- **Instructions and errors have the position of the innermost statement with one**, except that
nobody asks for the position of a `break` or `continue` that an `if` looks into.

The statements that contain what a site is about stand in each other, up to the body of the function.

A flattened program has the functions of the model.  Each begins with its entry marker and may end
in a return that no statement asks for, neither with a position; in between stands the code of the
sites of the function in their order, and all code of a site has the position of the innermost
statement around the site that has one.

A program is not flattened exactly if some function, the first in order of which this holds, is stuck
at one of its sites.  The error is the one of that site and has its position.  The statements around
the site are all that contain what failed, unless the error is that there is no loop to leave. -/
theorem positions_innermost (model : Model.Program) :
    (∀ f, ∀ site ∈ sitesOf f, Nested f.body site.enclosing) ∧
    (∀ flat, Program.ofModel model = .ok flat → ∀ label g, flat.find? label = some g →
      ∃ module ∈ model.modules.values, ∃ f ∈ module.functions.values, f.label = label ∧
        ∃ code tail, Laid ⟨model, f⟩ 1 (sitesOf f) code ∧
          located g.body = ⟨none, .marker label⟩ :: (code ++ tail) ∧
          (tail = [] ∨ tail = [⟨none, .ret none⟩])) ∧
    ∀ e, Program.ofModel model = .error e ↔
      ∃ before f after, (model.modules.values.flatMap fun m => m.functions.values) =
          before ++ f :: after ∧
        (∀ other ∈ before, ∃ code, Laid ⟨model, other⟩ 1 (sitesOf other) code) ∧
        ∃ site, Stuck ⟨model, f⟩ 1 (sitesOf f) site e.value ∧
          e.position = innermost site.around ∧
          (site.enclosing = site.around ∨ e.value = .loopControl) := by
  refine ⟨fun f => nested_sitesAll f.body fun stmt hstmt => .top hstmt, ?_, ?_⟩
  · intro flat hflat label g hg
    obtain ⟨module, hmodule, f, hf, rfl, hof⟩ := exists_of_find?_ofModel hflat hg
    obtain ⟨segment, tail, hsegment, hbody, htail⟩ := ofModel_eq_ok hof
    exact ⟨module, hmodule, f, hf, rfl, _, tail, laid_of_flattenAll hsegment, hbody, htail⟩
  · intro e
    refine foldlM_insert_eq_error.trans ?_
    constructor
    · rintro ⟨before, f, after, horder, hbefore, hf⟩
      obtain ⟨site, hstuck, hposition⟩ := ofModel_eq_error_iff.mp hf
      refine ⟨before, f, after, horder, fun other hother => ?_, site, hstuck, hposition,
        hstuck.enclosing_or⟩
      exact exists_ofModel_iff.mp (hbefore other hother)
    · rintro ⟨before, f, after, horder, hbefore, site, hstuck, hposition, _⟩
      refine ⟨before, f, after, horder, fun other hother => ?_,
        ofModel_eq_error_iff.mpr ⟨site, hstuck, hposition⟩⟩
      exact exists_ofModel_iff.mpr (hbefore other hother)

end Functions

/-- The line of an `if`. -/
def ifLine : Position := ⟨"demo.m", 5⟩

/-- The line of a `break` in it. -/
def breakLine : Position := ⟨"demo.m", 6⟩

/-- A function that is one `if`. -/
def conditional (consequent : Located Stmt) : Model.Function where
  label := "demo.main"
  body := [⟨some ifLine, .branch (.bool true) consequent none⟩]

/-- A program with that function alone. -/
def conditionally (consequent : Located Stmt) : Model.Program :=
  let demo : Model.Module := ({} : Model.Module).addFunction (conditional consequent)
  { name := "demo", modules := Table.empty.insert "demo" demo }

/-- **A misplaced `break` may be reported at another line than its own.**  Alone in an `if` it is
reported at the line of the `if`; behind something else in the same `if`, at its own. -/
theorem break_reported_elsewhere :
    (∃ site, Stuck ⟨conditionally ⟨some breakLine, .breakLoop⟩,
          conditional ⟨some breakLine, .breakLoop⟩⟩ 1
        (sitesOf (conditional ⟨some breakLine, .breakLoop⟩)) site .loopControl ∧
      innermost site.enclosing = some breakLine ∧
      Program.ofModel (conditionally ⟨some breakLine, .breakLoop⟩) =
        .error ⟨some ifLine, .loopControl⟩) ∧
    Program.ofModel (conditionally ⟨none, .block [⟨none, .nop⟩, ⟨some breakLine, .breakLoop⟩]⟩) =
      .error ⟨some breakLine, .loopControl⟩ := by
  refine ⟨⟨_, .later ⟨.single (.bool true) .bit, rfl, rfl⟩ (.here ⟨rfl, rfl⟩), rfl, ?_⟩, ?_⟩
  · rfl
  · rfl

end Stackless.Flat
