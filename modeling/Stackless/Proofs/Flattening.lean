import Stackless.Proofs.FlatShape

/-!
# Flattening as a relation

`Flattens` is the flattening of statements as a relation, one rule for each way
in which a statement becomes code.  A flattening that succeeded is taken apart
once and for all:

* `flattens_of_flatten` — it follows the rules, and `Flattens.flatten_eq`: what follows them is
  what is flattened;
* `flatBody_eq_ok` — a body is the entry marker, the code of its statements, and
  a return unless they end in one.

Proofs about flat bodies go by induction on the rules.  The first of them:
`shaped_of_flatBody`, a body has the shape of flat code.
-/

namespace Stackless.Flat

open Model (Stmt)

/-- Whether a statement is neither a jump nor made of other statements. Its code is a single piece,
and makes no markers. -/
def isSimple : Stmt → Bool
  | .block _ | .branch _ _ _ | .loop _ | .breakLoop | .continueLoop => false
  | _ => true

/-- Whether a statement is simple and no return. -/
def isPrimitive : Stmt → Bool
  | .assign _ _ _ | .call _ _ | .timer _ | .level _ => true
  | .halt | .pause | .reset | .restart | .nop => true
  | _ => false

/-- Whether an instruction completes a primitive statement. -/
def Instruction.isDeed : Instruction → Bool
  | .assign _ _ _ _ | .call _ none | .timer _ | .level _ => true
  | .halt | .pause | .reset | .restart | .nop => true
  | _ => false

/-- A statement that is nothing but a `break` or a `continue` is one in blocks of its own. -/
theorem loopExit?_induction {P : Stmt → LoopExit → Prop} (hbreak : P .breakLoop .breakLoop)
    (hcontinue : P .continueLoop .continueLoop)
    (hblock : ∀ own stmt exit, P stmt exit → P (.block [⟨own, stmt⟩]) exit) {stmt : Stmt}
    {exit : LoopExit} (h : loopExit? stmt = some exit) : P stmt exit := by
  fun_induction loopExit? stmt with
  | case1 =>
      cases h
      exact hbreak
  | case2 =>
      cases h
      exact hcontinue
  | case3 own stmt ih => exact hblock own stmt exit (ih h)
  | case4 => cases h

/-- **The code of a simple statement computes values and then does one thing**: it
returns if the statement does, and completes a primitive statement otherwise. -/
theorem simpleCode_split {ctx : Context} {start : Nat} {stmt : Stmt} {code : List Instruction}
    (hsimple : isSimple stmt = true) (h : simpleCode ctx start stmt = .ok code) :
    ∃ inner last, code = inner ++ [last] ∧ (∀ x ∈ inner, x.isInner = true) ∧
      ((∃ value, stmt = .ret value) ∧ last.isReturn = true ∨
        isPrimitive stmt = true ∧ last.isDeed = true) := by
  cases stmt with
  | assign target op value =>
      obtain ⟨value, hvalue, h⟩ := bind_eq_ok.mp h
      obtain ⟨place, hplace, h⟩ := bind_eq_ok.mp h
      cases h
      refine ⟨_, _, rfl, fun x hx => ?_, .inr ⟨rfl, rfl⟩⟩
      rcases List.mem_append.mp hx with hx | hx
      · exact (evaluate_computes _ hvalue).inner x hx
      · exact (evaluatePlace_computes hplace).inner x hx
  | call function arguments =>
      obtain ⟨callee, _, h⟩ := bind_eq_ok.mp h
      obtain ⟨⟨code, refs⟩, hcode, h⟩ := bind_eq_ok.mp h
      cases h
      refine ⟨_, _, rfl, fun x hx => ?_, .inr ⟨rfl, rfl⟩⟩
      rcases List.mem_append.mp hx with hx | hx
      · exact (evaluateAll_computes _ hcode).1.inner x hx
      · obtain ⟨name, r, _, rfl⟩ := mem_passing hx
        rfl
  | ret value =>
      cases value with
      | none =>
          cases h
          exact ⟨[], _, rfl, by simp, .inl ⟨⟨none, rfl⟩, rfl⟩⟩
      | some value =>
          obtain ⟨value, hvalue, h⟩ := bind_eq_ok.mp h
          cases h
          exact ⟨_, _, rfl, (evaluate_computes _ hvalue).inner, .inl ⟨⟨_, rfl⟩, rfl⟩⟩
  | timer value =>
      obtain ⟨value, hvalue, h⟩ := bind_eq_ok.mp h
      cases h
      exact ⟨_, _, rfl, (evaluate_computes _ hvalue).inner, .inr ⟨rfl, rfl⟩⟩
  | level | halt | pause | reset | restart | nop =>
      cases h
      exact ⟨[], _, rfl, by simp, .inr ⟨rfl, rfl⟩⟩
  | block | branch | loop | breakLoop | continueLoop => cases hsimple

/-- How a statement becomes code: inside a loop or not, at a position, from an index
on, when some markers have been named; the ops, and the markers named up to their
end.  Statements one after another are a block. -/
inductive Flattens (ctx : Context) :
    Option LoopMarkers → Option Position → Nat → Nat → Stmt → List Op → Nat → Prop
  | nil {loop position start markers} :
      Flattens ctx loop position start markers (.block []) [] markers
  | cons {loop position start markers own stmt rest first others middle final} :
      Flattens ctx loop (own.or position) start markers stmt first middle →
      Flattens ctx loop position (start + first.length) middle (.block rest) others final →
      Flattens ctx loop position start markers (.block (⟨own, stmt⟩ :: rest)) (first ++ others) final
  /-- A conditional `break` or `continue`. -/
  | exit {loop position start markers condition own stmt value exit target} :
      evaluate ctx start (polarity condition).1 = .ok value →
      loopExit? stmt = some exit → exit.target loop = .ok target →
      Flattens ctx loop position start markers (.branch condition ⟨own, stmt⟩ none)
        (opsAt position
          (value.code ++ [.branch (!(polarity condition).2) (value.ref start) target])) markers
  /-- A conditional `break` or `continue` with something to do otherwise. -/
  | exitElse {loop position start markers condition own stmt own' stmt' value exit target
      others final} :
      evaluate ctx start (polarity condition).1 = .ok value →
      loopExit? stmt = some exit → exit.target loop = .ok target →
      Flattens ctx loop (own'.or position) (value.next start + 1) markers stmt' others final →
      Flattens ctx loop position start markers (.branch condition ⟨own, stmt⟩ (some ⟨own', stmt'⟩))
        (opsAt position
          (value.code ++ [.branch (!(polarity condition).2) (value.ref start) target]) ++ others)
        final
  | choose {loop position start markers condition own stmt value body final} :
      evaluate ctx start (polarity condition).1 = .ok value →
      loopExit? stmt = none →
      Flattens ctx loop (own.or position) (value.next start + 1) (markers + 1) stmt body final →
      Flattens ctx loop position start markers (.branch condition ⟨own, stmt⟩ none)
        (opsAt position (value.code ++ [.branch (polarity condition).2 (value.ref start)
            { marker := markerName ctx.function.label (markers + 1) }]) ++
          body ++ opsAt position [.marker (markerName ctx.function.label (markers + 1))]) final
  | chooseElse {loop position start markers condition own stmt own' stmt' value body middle
      others final} :
      evaluate ctx start (polarity condition).1 = .ok value →
      loopExit? stmt = none →
      Flattens ctx loop (own.or position) (value.next start + 1) (markers + 1) stmt body middle →
      Flattens ctx loop (own'.or position) (value.next start + 1 + body.length + 2) (middle + 1)
        stmt' others final →
      Flattens ctx loop position start markers (.branch condition ⟨own, stmt⟩ (some ⟨own', stmt'⟩))
        (opsAt position (value.code ++ [.branch (polarity condition).2 (value.ref start)
            { marker := markerName ctx.function.label (markers + 1) }]) ++
          body ++
          opsAt position [.jump { marker := markerName ctx.function.label (middle + 1) },
            .marker (markerName ctx.function.label (markers + 1))] ++
          others ++ opsAt position [.marker (markerName ctx.function.label (middle + 1))]) final
  | loop {outer position start markers own stmt body final} :
      Flattens ctx (some ⟨markerName ctx.function.label (markers + 1),
          markerName ctx.function.label (markers + 2)⟩)
        (own.or position) (start + 1) (markers + 2) stmt body final →
      Flattens ctx outer position start markers (.loop ⟨own, stmt⟩)
        (opsAt position [.marker (markerName ctx.function.label (markers + 1))] ++ body ++
          opsAt position [.jump { marker := markerName ctx.function.label (markers + 1) },
            .marker (markerName ctx.function.label (markers + 2))]) final
  | breakLoop {loop position start markers target} :
      LoopExit.breakLoop.target loop = .ok target →
      Flattens ctx loop position start markers .breakLoop (opsAt position [.jump target]) markers
  | continueLoop {loop position start markers target} :
      LoopExit.continueLoop.target loop = .ok target →
      Flattens ctx loop position start markers .continueLoop (opsAt position [.jump target]) markers
  | simple {loop position start markers stmt code} :
      isSimple stmt = true → simpleCode ctx start stmt = .ok code →
      Flattens ctx loop position start markers stmt (opsAt position code) markers

/-- What is located succeeds with what it succeeded with. -/
theorem locate_eq_ok {α : Type} {position : Option Position} {x : Except CompileError α} {a : α} :
    locate position x = .ok a ↔ x = .ok a :=
  mapError_eq_ok

mutual

/-- **A flattening that succeeded follows the rules.**  By recursion on statements and lists of
statements, as the flattening itself goes. -/
theorem flattens_of_flatten {ctx : Context} :
    ∀ (stmt : Stmt) {loop : Option LoopMarkers} {position : Option Position}
      {start markers : Nat} {segment : Segment},
      flatten ctx loop position start markers stmt = .ok segment →
      Flattens ctx loop position start markers stmt segment.ops segment.markers
  | .block body, loop, position, start, markers, segment, h => by
    rw [flatten] at h
    exact flattens_of_flattenAll body h
  | .branch condition ⟨own, stmt⟩ alternative, loop, position, start, markers, segment, h => by
    rw [flatten] at h
    obtain ⟨value, hvalue, h⟩ := bind_eq_ok.mp h
    have hvalue := locate_eq_ok.mp hvalue
    cases hexit : loopExit? stmt with
    | some exit =>
        simp only [hexit] at h
        obtain ⟨target, htarget, h⟩ := bind_eq_ok.mp h
        have htarget := locate_eq_ok.mp htarget
        cases alternative with
        | none =>
            cases h
            exact .exit hvalue hexit htarget
        | some other =>
            obtain ⟨own', stmt'⟩ := other
            obtain ⟨rest, hrest, h⟩ := bind_eq_ok.mp h
            cases h
            rw [flattenLocated] at hrest
            exact .exitElse hvalue hexit htarget (flattens_of_flatten stmt' hrest)
    | none =>
        simp only [hexit] at h
        obtain ⟨body, hbody, h⟩ := bind_eq_ok.mp h
        rw [flattenLocated] at hbody
        have hbody := flattens_of_flatten stmt hbody
        cases alternative with
        | none =>
            cases h
            exact .choose hvalue hexit hbody
        | some other =>
            obtain ⟨own', stmt'⟩ := other
            obtain ⟨rest, hrest, h⟩ := bind_eq_ok.mp h
            cases h
            rw [flattenLocated] at hrest
            exact .chooseElse hvalue hexit hbody (flattens_of_flatten stmt' hrest)
  | .loop ⟨own, stmt⟩, loop, position, start, markers, segment, h => by
    rw [flatten] at h
    obtain ⟨body, hbody, h⟩ := bind_eq_ok.mp h
    cases h
    rw [flattenLocated] at hbody
    exact .loop (flattens_of_flatten stmt hbody)
  | .breakLoop, loop, position, start, markers, segment, h => by
    rw [flatten] at h
    obtain ⟨target, htarget, h⟩ := bind_eq_ok.mp h
    cases h
    exact .breakLoop (locate_eq_ok.mp htarget)
  | .continueLoop, loop, position, start, markers, segment, h => by
    rw [flatten] at h
    obtain ⟨target, htarget, h⟩ := bind_eq_ok.mp h
    cases h
    exact .continueLoop (locate_eq_ok.mp htarget)
  | .assign .., _, _, _, _, _, h | .call .., _, _, _, _, _, h | .ret _, _, _, _, _, _, h
  | .timer _, _, _, _, _, _, h | .level _, _, _, _, _, _, h | .halt, _, _, _, _, _, h
  | .pause, _, _, _, _, _, h | .reset, _, _, _, _, _, h | .restart, _, _, _, _, _, h
  | .nop, _, _, _, _, _, h => by
    simp only [flatten] at h
    obtain ⟨code, hcode, h⟩ := bind_eq_ok.mp h
    cases h
    exact .simple rfl (locate_eq_ok.mp hcode)

/-- Statements that were flattened one after another follow the rules of a block. -/
theorem flattens_of_flattenAll {ctx : Context} :
    ∀ (body : List (Located Stmt)) {loop : Option LoopMarkers} {position : Option Position}
      {start markers : Nat} {segment : Segment},
      flattenAll ctx loop position start markers body = .ok segment →
      Flattens ctx loop position start markers (.block body) segment.ops segment.markers
  | [], loop, position, start, markers, segment, h => by
    cases h
    exact .nil
  | ⟨own, stmt⟩ :: rest, loop, position, start, markers, segment, h => by
    rw [flattenAll] at h
    obtain ⟨first, hfirst, h⟩ := bind_eq_ok.mp h
    obtain ⟨others, hothers, h⟩ := bind_eq_ok.mp h
    cases h
    rw [flattenLocated] at hfirst
    exact .cons (flattens_of_flatten stmt hfirst) (flattens_of_flattenAll rest hothers)

end

/-- **What follows the rules is what is flattened.**  With `flattens_of_flatten`, the rules say all
that there is to say about flattening, so that later inductions are over the rules. -/
theorem Flattens.flatten_eq {ctx : Context} {loop : Option LoopMarkers}
    {position : Option Position} {start markers final : Nat} {stmt : Stmt} {ops : List Op}
    (h : Flattens ctx loop position start markers stmt ops final) :
    flatten ctx loop position start markers stmt = .ok ⟨ops, final⟩ := by
  induction h with
  | nil => rfl
  | cons _ _ ihfirst ihothers =>
      rw [flatten] at ihothers
      rw [flatten, flattenAll, flattenLocated]
      exact bind_eq_ok.mpr ⟨_, ihfirst, bind_eq_ok.mpr ⟨_, ihothers, rfl⟩⟩
  | exit hvalue hexit htarget =>
      simp only [flatten, hexit]
      exact bind_eq_ok.mpr ⟨_, locate_eq_ok.mpr hvalue,
        bind_eq_ok.mpr ⟨_, locate_eq_ok.mpr htarget, rfl⟩⟩
  | exitElse hvalue hexit htarget _ ih =>
      simp only [flatten, hexit, flattenLocated]
      exact bind_eq_ok.mpr ⟨_, locate_eq_ok.mpr hvalue,
        bind_eq_ok.mpr ⟨_, locate_eq_ok.mpr htarget, bind_eq_ok.mpr ⟨_, ih, rfl⟩⟩⟩
  | choose hvalue hexit _ ih =>
      simp only [flatten, hexit, flattenLocated]
      exact bind_eq_ok.mpr ⟨_, locate_eq_ok.mpr hvalue, bind_eq_ok.mpr ⟨_, ih, rfl⟩⟩
  | chooseElse hvalue hexit _ _ ihbody ihothers =>
      simp only [flatten, hexit, flattenLocated]
      exact bind_eq_ok.mpr ⟨_, locate_eq_ok.mpr hvalue,
        bind_eq_ok.mpr ⟨_, ihbody, bind_eq_ok.mpr ⟨_, ihothers, rfl⟩⟩⟩
  | loop _ ih =>
      rw [flatten, flattenLocated]
      exact bind_eq_ok.mpr ⟨_, ih, rfl⟩
  | breakLoop htarget =>
      rw [flatten]
      exact bind_eq_ok.mpr ⟨_, locate_eq_ok.mpr htarget, rfl⟩
  | continueLoop htarget =>
      rw [flatten]
      exact bind_eq_ok.mpr ⟨_, locate_eq_ok.mpr htarget, rfl⟩
  | @simple _ _ _ _ stmt _ hsimple hcode =>
      cases stmt with
      | block | branch | loop | breakLoop | continueLoop => cases hsimple
      | _ => exact bind_eq_ok.mpr ⟨_, locate_eq_ok.mpr hcode, rfl⟩

theorem jump_shaped (start : Nat) (target : Target) (name : String) :
    Shaped start [.jump target, .marker name] := by
  have hjump : Shaped start [.jump target] := .single rfl rfl
  exact hjump.append (.single rfl rfl)

/-- **Statements become code of the right shape.** -/
theorem Flattens.shaped {ctx : Context} {loop : Option LoopMarkers} {position : Option Position}
    {start markers final : Nat} {stmt : Stmt} {ops : List Op}
    (h : Flattens ctx loop position start markers stmt ops final) : Shaped start (codeOf ops) := by
  have hbehind : ∀ {value : Evaluation} {start : Nat} {user : Instruction},
      value.next start + 1 = start + (value.code ++ [user]).length := by
    intro value start user
    rw [value.next_eq, List.length_append, List.length_singleton]
    omega
  induction h with
  | nil => exact .nil
  | cons _ _ ihfirst ihothers =>
      rw [codeOf_append]
      rw [← length_codeOf] at ihothers
      exact ihfirst.append ihothers
  | exit hvalue _ _ =>
      rw [codeOf_opsAt]
      exact use_shaped hvalue rfl rfl rfl
  | exitElse hvalue _ _ _ ih =>
      rw [codeOf_append, codeOf_opsAt]
      rw [hbehind] at ih
      exact (use_shaped hvalue rfl rfl rfl).append ih
  | choose hvalue _ _ ih =>
      rw [codeOf_append, codeOf_append, codeOf_opsAt, codeOf_opsAt]
      rw [hbehind] at ih
      exact ((use_shaped hvalue rfl rfl rfl).append ih).append (.single rfl rfl)
  | chooseElse hvalue _ _ _ ihbody ihothers =>
      simp only [codeOf_append, codeOf_opsAt]
      rw [hbehind] at ihbody
      refine Shaped.append (Shaped.append (Shaped.append (Shaped.append
        (use_shaped hvalue rfl rfl rfl) ihbody) (jump_shaped _ _ _)) ?_) (.single rfl rfl)
      simp only [List.length_append, List.length_cons, List.length_nil, length_codeOf,
        Evaluation.next_eq, ← Nat.add_assoc] at ihothers ⊢
      exact ihothers
  | @loop _ position start _ _ _ body _ _ ih =>
      simp only [codeOf_append, codeOf_opsAt]
      refine Shaped.append (Shaped.append (.single rfl rfl) ih) ?_
      exact jump_shaped _ _ _
  | breakLoop _ =>
      rw [codeOf_opsAt]
      exact .single rfl rfl
  | continueLoop _ =>
      rw [codeOf_opsAt]
      exact .single rfl rfl
  | simple _ hcode =>
      rw [codeOf_opsAt]
      exact simpleCode_shaped hcode

theorem offset_of_mem_opsAt {position : Option Position} {code : List Instruction} {op : Op}
    (h : op ∈ opsAt position code) : op.offset = .unresolved := by
  obtain ⟨instr, _, rfl⟩ := List.mem_map.mp h
  rfl

/-- Ops of statements have no offset. -/
theorem Flattens.unresolved {ctx : Context} {loop : Option LoopMarkers} {position : Option Position}
    {start markers final : Nat} {stmt : Stmt} {ops : List Op}
    (h : Flattens ctx loop position start markers stmt ops final) :
    ∀ op ∈ ops, op.offset = .unresolved := by
  induction h with
  | nil => simp
  | cons _ _ ihfirst ihothers =>
      exact fun op hop => (List.mem_append.mp hop).elim (ihfirst op) (ihothers op)
  | exitElse _ _ _ _ ih =>
      exact fun op hop => (List.mem_append.mp hop).elim offset_of_mem_opsAt (ih op)
  | choose _ _ _ ih =>
      intro op hop
      rcases List.mem_append.mp hop with hop | hop
      · exact (List.mem_append.mp hop).elim offset_of_mem_opsAt (ih op)
      · exact offset_of_mem_opsAt hop
  | chooseElse _ _ _ _ ihbody ihothers =>
      intro op hop
      rcases List.mem_append.mp hop with hop | hop
      · rcases List.mem_append.mp hop with hop | hop
        · rcases List.mem_append.mp hop with hop | hop
          · exact (List.mem_append.mp hop).elim offset_of_mem_opsAt (ihbody op)
          · exact offset_of_mem_opsAt hop
        · exact ihothers op hop
      · exact offset_of_mem_opsAt hop
  | loop _ ih =>
      intro op hop
      rcases List.mem_append.mp hop with hop | hop
      · exact (List.mem_append.mp hop).elim offset_of_mem_opsAt (ih op)
      · exact offset_of_mem_opsAt hop
  | exit | breakLoop | continueLoop | simple => exact fun op hop => offset_of_mem_opsAt hop

/-- A flat body is the entry marker, the code of its statements, and a return unless
they end in one. -/
theorem flatBody_eq_ok {ctx : Context} {body : List Op} (h : flatBody ctx = .ok body) :
    ∃ ops markers, Flattens ctx none none 1 0 (.block ctx.function.body) ops markers ∧
      body = opsAt none [.marker ctx.function.label] ++ ops ++
        (if endsInReturn (opsAt none [.marker ctx.function.label] ++ ops) then []
          else opsAt none [.ret none]) := by
  obtain ⟨segment, hsegment, h⟩ := bind_eq_ok.mp h
  refine ⟨segment.ops, segment.markers, flattens_of_flattenAll _ hsegment, ?_⟩
  rw [pure_eq_ok] at h
  rw [← h]
  split
  · rw [List.append_nil]
  · rfl

/-- **A flat body has the shape of flat code**: the marker of the entry, the code of the
statements, and a return behind it unless the code ends in one. -/
theorem shaped_of_flatBody {ctx : Context} {body : List Op} (h : flatBody ctx = .ok body) :
    Shaped 0 (codeOf body) := by
  obtain ⟨ops, markers, hflattens, rfl⟩ := flatBody_eq_ok h
  have hstatements : Shaped 0 (codeOf (opsAt none [.marker ctx.function.label] ++ ops)) := by
    rw [codeOf_append, codeOf_opsAt]
    exact Shaped.append (.single rfl rfl) hflattens.shaped
  rw [codeOf_append]
  split
  · rw [show codeOf [] = [] from rfl, List.append_nil]
    exact hstatements
  · rw [codeOf_opsAt]
    exact hstatements.append (.single rfl rfl)

/-- The ops of a flat body have no offset. -/
theorem unresolved_of_flatBody {ctx : Context} {body : List Op} (h : flatBody ctx = .ok body) :
    ∀ op ∈ body, op.offset = .unresolved := by
  obtain ⟨ops, markers, hflattens, rfl⟩ := flatBody_eq_ok h
  intro op hop
  rcases List.mem_append.mp hop with hop | hop
  · exact (List.mem_append.mp hop).elim offset_of_mem_opsAt (hflattens.unresolved op)
  · split at hop
    · cases hop
    · exact offset_of_mem_opsAt hop

end Stackless.Flat
