import Stackless.Proofs.MarkerNames
import Stackless.Proofs.SoleUse
import Stackless.Proofs.Typing

/-!
# Flat code is well formed

What the later phases take for granted of flat code, whatever the types in a program are:

* an op is used by one op behind it, once, and gives a value or is the place of an assignment;
* between an op and its user only values are computed;
* markers have different names, and jumps go to markers behind the entry;
* a call stands behind its parameters, which stand in the order in which the function declares them
  behind all values that they pass.

`WellFormed` says so of the code of a function, and `ofModel_wellFormed` that the code of every
function of a flattened program is.  The first and the last are shown from expression to expression
(`Linked`), for code at any index; `Fed` looks up operands as `Suits` does, without their kinds.
-/

namespace Stackless

namespace Flat

open Model (Stmt Expr)

/-- What an instruction names gives a value, or is the place that an assignment writes. -/
def Fed (look : Nat → Option Instruction) (user : Instruction) : Prop :=
  ∀ r ∈ user.operands, (∃ kind, Gives look r kind) ∨
    ∃ op width value place, user = .assign op width r value ∧ look r = some place ∧
      place.placeWidth? = some width

/-- A call in code that starts at an index, with its parameters from `first` on. -/
structure CallAt (program : Model.Program) (start : Nat) (code : List Instruction) (first : Nat)
    (function : String) (result : Option Width) (callee : Model.Function) (refs : List Nat) :
    Prop where
  callee_eq : program.function function = .ok callee
  length_eq : refs.length = callee.parameters.length
  /-- The declared parameters get their values one after another. -/
  parameter : ∀ (k : Nat) p r, callee.parameters[k]? = some p → refs[k]? = some r →
    code[first + k]? = some (.parameter function p.name r)
  /-- The call follows at once. -/
  call : code[first + refs.length]? = some (.call function result)
  /-- All values stand before the first parameter. -/
  before : ∀ r ∈ refs, r < start + first

/-- What is said of the code of every function of a program: how operands stand to their users,
jumps to their markers, and parameters to their calls. -/
structure WellFormed (program : Model.Program) (code : List Instruction) : Prop where
  /-- An operand stands before its user and gives a value, or is the place of an assignment. -/
  operand : ∀ (j : Nat) user r, code[j]? = some user → r ∈ user.operands → r < j ∧
    ∃ x, code[r]? = some x ∧ ((∃ kind, x.kind? = some kind) ∨
      ∃ op width value, user = .assign op width r value ∧ x.placeWidth? = some width)
  /-- It has no other user, and is named once. -/
  once : ∀ (j : Nat) user r, code[j]? = some user → r ∈ user.operands →
    user.operands.count r = 1 ∧
      ∀ (j' : Nat) user', code[j']? = some user' → r ∈ user'.operands → j' = j
  /-- Up to its user only values are computed. -/
  between : ∀ (j : Nat) user r k, code[j]? = some user → r ∈ user.operands → r < k → k < j →
    ∃ x, code[k]? = some x ∧ x.isInner = true
  /-- No two markers have one name, the entry included. -/
  distinct : ∀ (i j : Nat) name, code[i]? = some (.marker name) → code[j]? = some (.marker name) →
    i = j
  /-- What goes somewhere goes to one marker behind the entry. -/
  pointed : ∀ (i : Nat) x target, code[i]? = some x → x.target? = some target →
    ∃ index, 1 ≤ index ∧ code[index]? = some (.marker target.marker) ∧
      ∀ other, code[other]? = some (.marker target.marker) → other = index
  /-- A call stands behind its parameters. -/
  called : ∀ (j : Nat) function result, code[j]? = some (.call function result) →
    ∃ first callee refs, CallAt program 0 code first function result callee refs ∧
      j = first + refs.length
  /-- A parameter belongs to a call of its function. -/
  passed : ∀ (i : Nat) function name value, code[i]? = some (.parameter function name value) →
    ∃ first result callee refs, CallAt program 0 code first function result callee refs ∧
      first ≤ i ∧ i < first + refs.length

/-- A user is fed wherever the same ops are found. -/
theorem steady_fed : Steady Fed := by
  intro look look' user h hlook r hr
  rcases h r hr with ⟨kind, x, hx, hkind⟩ | ⟨op, width, value, place, huser, hplace, hwidth⟩
  · exact .inl ⟨kind, x, hlook r x hx, hkind⟩
  · exact .inr ⟨op, width, value, place, huser, hlook r place hplace, hwidth⟩

theorem fed_of_gives {look : Nat → Option Instruction} {user : Instruction}
    (h : ∀ r ∈ user.operands, ∃ kind, Gives look r kind) : Fed look user :=
  fun r hr => .inl (h r hr)

namespace CallAt

variable {program : Model.Program} {start first : Nat} {xs ys : List Instruction}
  {function : String} {result : Option Width} {callee : Model.Function} {refs : List Nat}

/-- A call stays when more stands behind it. -/
theorem append_left (h : CallAt program start xs first function result callee refs) :
    CallAt program start (xs ++ ys) first function result callee refs := by
  have hgrow : ∀ {k : Nat} {x : Instruction}, xs[k]? = some x → (xs ++ ys)[k]? = some x := by
    intro k x hx
    rw [List.getElem?_append_left (List.getElem?_eq_some_iff.mp hx).1]
    exact hx
  exact { h with
    parameter := fun k p r hp hr => hgrow (h.parameter k p r hp hr)
    call := hgrow h.call }

/-- And when more stands in front of it. -/
theorem append_right (h : CallAt program (start + xs.length) ys first function result callee refs) :
    CallAt program start (xs ++ ys) (xs.length + first) function result callee refs := by
  have hgrow : ∀ {k : Nat} {y : Instruction}, ys[first + k]? = some y →
      (xs ++ ys)[xs.length + first + k]? = some y := by
    intro k y hy
    rw [List.getElem?_append_right (by omega)]
    rw [← hy]
    congr 1
    omega
  refine ⟨h.callee_eq, h.length_eq, fun k p r hp hr => hgrow (h.parameter k p r hp hr),
    hgrow h.call, fun r hr => ?_⟩
  have := h.before r hr
  omega

end CallAt

/-- Code at an index in which calls stand behind their parameters. -/
structure Seated (program : Model.Program) (start : Nat) (code : List Instruction) : Prop where
  called : ∀ (j : Nat) function result, code[j]? = some (.call function result) →
    ∃ first callee refs, CallAt program start code first function result callee refs ∧
      j = first + refs.length
  passed : ∀ (i : Nat) function name value, code[i]? = some (.parameter function name value) →
    ∃ first result callee refs, CallAt program start code first function result callee refs ∧
      first ≤ i ∧ i < first + refs.length

namespace Seated

variable {program : Model.Program} {start : Nat} {xs ys : List Instruction}

/-- Code that has nothing to do with calls. -/
theorem of_plain (h : ∀ x ∈ xs, ∀ function, x.serves function = false) :
    Seated program start xs := by
  refine ⟨fun j function result hj => ?_, fun i function name value hi => ?_⟩
  · have hserves := h _ (List.mem_of_getElem? hj) function
    rw [Instruction.serves, decide_eq_false_iff_not] at hserves
    exact absurd rfl hserves
  · have hserves := h _ (List.mem_of_getElem? hi) function
    rw [Instruction.serves, decide_eq_false_iff_not] at hserves
    exact absurd rfl hserves

/-- Pieces of code, one after the other. -/
theorem append (hx : Seated program start xs) (hy : Seated program (start + xs.length) ys) :
    Seated program start (xs ++ ys) := by
  refine ⟨fun j function result hj => ?_, fun i function name value hi => ?_⟩
  · rw [List.getElem?_append] at hj
    split at hj
    · obtain ⟨first, callee, refs, hcall, hat⟩ := hx.called j function result hj
      exact ⟨first, callee, refs, hcall.append_left, hat⟩
    · obtain ⟨first, callee, refs, hcall, hat⟩ := hy.called _ function result hj
      exact ⟨_, callee, refs, hcall.append_right, by omega⟩
  · rw [List.getElem?_append] at hi
    split at hi
    · obtain ⟨first, result, callee, refs, hcall, hrange⟩ := hx.passed i function name value hi
      exact ⟨first, result, callee, refs, hcall.append_left, hrange⟩
    · obtain ⟨first, result, callee, refs, hcall, hrange⟩ := hy.passed _ function name value hi
      exact ⟨_, result, callee, refs, hcall.append_right, by omega⟩

/-- **A call behind its parameters**, which pass values that were computed before. -/
theorem passing {function : String} {callee : Model.Function} {refs : List Nat}
    (hcallee : program.function function = .ok callee)
    (hlength : refs.length = callee.parameters.length) (hrefs : ∀ r ∈ refs, r < start)
    (result : Option Width) :
    Seated program start (Flat.passing function callee refs ++ [.call function result]) := by
  have hpassing : (Flat.passing function callee refs).length = refs.length := by
    rw [Flat.passing, List.length_map, List.length_zip, hlength, Nat.min_self]
  have hcall : CallAt program start (Flat.passing function callee refs ++ [.call function result]) 0
      function result callee refs := by
    refine ⟨hcallee, hlength, fun k p r hp hr => ?_, ?_, hrefs⟩
    · have hk := (List.getElem?_eq_some_iff.mp hr).1
      have hzip : (callee.parameters.zip refs)[k]? = some (p, r) :=
        List.getElem?_zip_eq_some.mpr ⟨hp, hr⟩
      rw [Nat.zero_add, List.getElem?_append_left (by omega), Flat.passing, List.getElem?_map, hzip]
      rfl
    · rw [Nat.zero_add, List.getElem?_append_right (by omega), hpassing, Nat.sub_self]
      rfl
  refine ⟨fun j function' result' hj => ?_, fun i function' name value hi => ?_⟩
  · rw [List.getElem?_append] at hj
    split at hj
    · obtain ⟨_, _, _, hparameter⟩ := mem_passing (List.mem_of_getElem? hj)
      cases hparameter
    · have hlt := (List.getElem?_eq_some_iff.mp hj).1
      rw [List.length_singleton] at hlt
      cases List.mem_singleton.mp (List.mem_of_getElem? hj)
      exact ⟨0, callee, refs, hcall, by omega⟩
  · rw [List.getElem?_append] at hi
    split at hi
    · obtain ⟨_, _, _, hparameter⟩ := mem_passing (List.mem_of_getElem? hi)
      cases hparameter
      exact ⟨0, result, callee, refs, hcall, by omega, by omega⟩
    · cases List.mem_singleton.mp (List.mem_of_getElem? hi)

end Seated

/-- Code at an index in which users are fed and calls stand behind their parameters. -/
structure Linked (program : Model.Program) (start : Nat) (code : List Instruction) : Prop where
  fed : ∀ x ∈ code, Fed (lookIn start code) x
  seated : Seated program start code

namespace Linked

variable {program : Model.Program} {start : Nat} {xs ys : List Instruction} {user : Instruction}

theorem nil : Linked program start [] :=
  ⟨by simp, .of_plain (by simp)⟩

/-- **Linked code, one piece after the other, is linked.** -/
theorem append (hx : Linked program start xs) (hy : Linked program (start + xs.length) ys) :
    Linked program start (xs ++ ys) :=
  ⟨steady_fed.append hx.fed hy.fed, hx.seated.append hy.seated⟩

theorem extend (hx : Linked program start xs) (hy : ∀ y ∈ ys, Fed (lookIn start xs) y)
    (hseated : Seated program (start + xs.length) ys) : Linked program start (xs ++ ys) :=
  ⟨steady_fed.extend hx.fed hy, hx.seated.append hseated⟩

/-- A user behind the code that feeds it, if it has nothing to do with calls. -/
theorem snoc (hx : Linked program start xs) (hfed : Fed (lookIn start xs) user)
    (hserves : ∀ function, user.serves function = false) : Linked program start (xs ++ [user]) := by
  refine hx.extend (fun y hy => ?_) (.of_plain fun y hy => ?_)
  · rwa [List.mem_singleton.mp hy]
  · rwa [List.mem_singleton.mp hy]

/-- An instruction that names nothing and has nothing to do with calls. -/
theorem single (hoperands : user.operands = []) (hserves : ∀ function, user.serves function = false) :
    Linked program start [user] := by
  refine nil.snoc (fun r hr => ?_) hserves
  rw [hoperands] at hr
  cases hr

/-- **A call behind the code of its arguments.** -/
theorem call {function : String} {callee : Model.Function} {refs : List Nat}
    (hx : Linked program start xs) (hcallee : program.function function = .ok callee)
    (hlength : refs.length = callee.parameters.length)
    (hrefs : ∀ r ∈ refs, ∃ kind, Gives (lookIn start xs) r kind) (result : Option Width) :
    Linked program start (xs ++ (passing function callee refs ++ [.call function result])) := by
  refine hx.extend (fun y hy => ?_) (.passing hcallee hlength (fun r hr => ?_) result)
  · refine fed_of_gives fun r hr => ?_
    rcases List.mem_append.mp hy with hy | hy
    · obtain ⟨name, r', hr', rfl⟩ := mem_passing hy
      rw [List.mem_singleton.mp hr]
      exact hrefs r' hr'
    · rw [List.mem_singleton.mp hy] at hr
      cases hr
  · obtain ⟨_, x, hx, _⟩ := hrefs r hr
    unfold lookIn at hx
    split at hx
    · have := (List.getElem?_eq_some_iff.mp hx).1
      omega
    · cases hx

end Linked

/-- An evaluation of linked code that gives a value. -/
structure Evaluation.Valued (program : Model.Program) (start : Nat) (e : Evaluation) : Prop where
  linked : Linked program start e.code
  kind : ∃ kind, e.result.kind? = some kind

namespace Evaluation.Valued

variable {program : Model.Program} {start : Nat} {value left right : Evaluation}
  {user : Instruction}

theorem single {x : Instruction} {kind width : Width} (hkind : x.kind? = some kind)
    (hoperands : x.operands = []) (hserves : ∀ function, x.serves function = false) :
    (Evaluation.single x width).Valued program start :=
  ⟨.single hoperands hserves, kind, hkind⟩

theorem gives (h : value.Valued program start) :
    ∃ kind, Gives (lookIn start value.code) (value.ref start) kind := by
  obtain ⟨kind, hkind⟩ := h.kind
  exact ⟨kind, _, lookIn_ref value start, hkind⟩

/-- A user of a value behind it. -/
theorem use (h : value.Valued program start) (huser : user.operands = [value.ref start])
    (hserves : ∀ function, user.serves function = false) :
    Linked program start (value.code ++ [user]) := by
  refine h.linked.snoc (fed_of_gives fun r hr => ?_) hserves
  rw [huser] at hr
  rw [List.mem_singleton.mp hr]
  exact h.gives

/-- A user of two values behind them. -/
theorem pair (hleft : left.Valued program start) (hright : right.Valued program (left.next start))
    (huser : user.operands = [left.ref start, right.ref (left.next start)])
    (hserves : ∀ function, user.serves function = false) :
    Linked program start (left.code ++ right.code ++ [user]) := by
  rw [left.next_eq] at hright huser
  refine (hleft.linked.append hright.linked).snoc (fed_of_gives fun r hr => ?_) hserves
  rw [huser] at hr
  rcases List.mem_cons.mp hr with rfl | hr
  · obtain ⟨kind, x, hx, hkind⟩ := hleft.gives
    exact ⟨kind, x, lookIn_append_left hx, hkind⟩
  · rw [List.mem_singleton.mp hr]
    obtain ⟨kind, x, hx, hkind⟩ := hright.gives
    exact ⟨kind, x, lookIn_append_right hx, hkind⟩

end Evaluation.Valued

section Expressions

variable {ctx : Context} {start : Nat}

/-- The read of a variable gives a value. -/
theorem valued_readVar (program : Model.Program) (start : Nat) (var : Var) (symbol : Model.Symbol) :
    (readVar var symbol).Valued program start := by
  unfold readVar
  split
  · exact .single rfl rfl fun _ => rfl
  · exact .single rfl rfl fun _ => rfl
  · exact .single rfl rfl fun _ => rfl
  · exact .single rfl rfl fun _ => rfl
  · split
    · exact .single rfl rfl fun _ => rfl
    · unfold literalOf
      split
      · exact .single rfl rfl fun _ => rfl
      · exact .single rfl rfl fun _ => rfl

theorem valued_of_isBase (program : Model.Program) (start : Nat) {array : Instruction}
    (h : array.isBase = true) : (Evaluation.single array .word).Valued program start := by
  cases array with
  | register | ram | rom => exact .single rfl rfl fun _ => rfl
  | _ => cases h

/-- A call has as many arguments as its function has parameters. -/
theorem length_of_callee {label : String} {found : Nat} {callee : Model.Function}
    (h : ctx.callee label found = .ok callee) : found = callee.parameters.length := by
  obtain ⟨callee', _, h⟩ := bind_eq_ok.mp h
  split at h
  · cases h
    assumption
  · cases h

mutual

/-- **An expression becomes linked code that gives a value.** -/
theorem valued_evaluate :
    ∀ (e : Expr) {start : Nat} {out : Evaluation}, evaluate ctx start e = .ok out →
      out.Valued ctx.program start
  | .int value, start, out, h => by
    cases h
    exact .single rfl rfl fun _ => rfl
  | .bool value, start, out, h => by
    cases h
    exact .single rfl rfl fun _ => rfl
  | .var label, start, out, h => by
    obtain ⟨⟨var, symbol⟩, _, h⟩ := bind_eq_ok.mp h
    cases h
    exact valued_readVar ctx.program start var symbol
  | .index label index, start, out, h => by
    obtain ⟨⟨var, symbol⟩, _, h⟩ := bind_eq_ok.mp h
    obtain ⟨⟨array, space⟩, harray, h⟩ := bind_eq_ok.mp h
    obtain ⟨value, hvalue, h⟩ := bind_eq_ok.mp h
    cases h
    have hbase := valued_of_isBase ctx.program start (isBase_arrayBase? (orError_eq_ok.mp harray))
    exact ⟨hbase.pair (valued_evaluate index hvalue) rfl fun _ => rfl, .word, rfl⟩
  | .unary op operand, start, out, h => by
    obtain ⟨value, hvalue, h⟩ := bind_eq_ok.mp h
    cases h
    exact ⟨(valued_evaluate operand hvalue).use rfl fun _ => rfl, mathWidth op, rfl⟩
  | .binary op lhs rhs, start, out, h => by
    obtain ⟨left, hleft, h⟩ := bind_eq_ok.mp h
    obtain ⟨right, hright, h⟩ := bind_eq_ok.mp h
    cases h
    exact ⟨(valued_evaluate lhs hleft).pair (valued_evaluate rhs hright) rfl fun _ => rfl,
      mathWidth op, rfl⟩
  | .compare op lhs rhs, start, out, h => by
    obtain ⟨left, hleft, h⟩ := bind_eq_ok.mp h
    obtain ⟨right, hright, h⟩ := bind_eq_ok.mp h
    cases h
    exact ⟨(valued_evaluate lhs hleft).pair (valued_evaluate rhs hright) rfl fun _ => rfl,
      .bit, rfl⟩
  | .call function arguments, start, out, h => by
    obtain ⟨callee, hcallee, h⟩ := bind_eq_ok.mp h
    obtain ⟨⟨code, refs⟩, hcode, h⟩ := bind_eq_ok.mp h
    obtain ⟨hlinked, hlength, hrefs⟩ := valued_evaluateAll arguments hcode
    have hcall := hlinked.call (callee_eq_ok hcallee)
      (hlength.trans (length_of_callee hcallee)) hrefs
    cases hreturns : callee.returns with
    | none =>
        rw [hreturns] at h
        cases h
    | some type =>
        rw [hreturns] at h
        cases h
        refine ⟨?_, resultWidth type, rfl⟩
        rw [Evaluation.code, List.append_assoc]
        exact hcall _

/-- Expressions, one after the other, become linked code that gives their values. -/
theorem valued_evaluateAll :
    ∀ (es : List Expr) {start : Nat} {code : List Instruction} {refs : List Nat},
      evaluateAll ctx start es = .ok (code, refs) →
      Linked ctx.program start code ∧ refs.length = es.length ∧
        ∀ r ∈ refs, ∃ kind, Gives (lookIn start code) r kind
  | [], start, code, refs, h => by
    cases h
    exact ⟨.nil, rfl, by simp⟩
  | e :: rest, start, code, refs, h => by
    obtain ⟨value, hvalue, h⟩ := bind_eq_ok.mp h
    obtain ⟨⟨code', refs'⟩, hrest, h⟩ := bind_eq_ok.mp h
    cases h
    rw [value.next_eq] at hrest
    have hvalued := valued_evaluate e hvalue
    obtain ⟨hlinked, hlength, hrefs⟩ := valued_evaluateAll rest hrest
    refine ⟨hvalued.linked.append hlinked, by simp [hlength], fun r hr => ?_⟩
    rcases List.mem_cons.mp hr with rfl | hr
    · obtain ⟨kind, x, hx, hkind⟩ := hvalued.gives
      exact ⟨kind, x, lookIn_append_left hx, hkind⟩
    · obtain ⟨kind, x, hx, hkind⟩ := hrefs r hr
      exact ⟨kind, x, lookIn_append_right hx, hkind⟩

end

/-- The target of an assignment becomes linked code. -/
theorem linked_evaluatePlace {e : Expr} {out : Evaluation}
    (h : evaluatePlace ctx start e = .ok out) : Linked ctx.program start out.code := by
  unfold evaluatePlace at h
  split at h
  · obtain ⟨⟨var, symbol⟩, _, h⟩ := bind_eq_ok.mp h
    have hwrite := orError_eq_ok.mp h
    unfold writeVar? at hwrite
    split at hwrite
    all_goals cases hwrite
    all_goals exact .single rfl fun _ => rfl
  · obtain ⟨⟨var, symbol⟩, _, h⟩ := bind_eq_ok.mp h
    obtain ⟨array, harray, h⟩ := bind_eq_ok.mp h
    obtain ⟨value, hvalue, h⟩ := bind_eq_ok.mp h
    cases h
    have hbase := valued_of_isBase ctx.program start
      (isBase_writableBase? (orError_eq_ok.mp harray))
    exact hbase.pair (valued_evaluate _ hvalue) rfl fun _ => rfl
  · cases h

/-- **A simple statement becomes linked code.** -/
theorem linked_simpleCode {stmt : Stmt} {code : List Instruction}
    (h : simpleCode ctx start stmt = .ok code) : Linked ctx.program start code := by
  cases stmt with
  | assign target op value =>
      obtain ⟨source, hsource, h⟩ := bind_eq_ok.mp h
      obtain ⟨place, hplace, h⟩ := bind_eq_ok.mp h
      cases h
      have hvalued := valued_evaluate value hsource
      have hwidth := placeWidth?_evaluatePlace hplace
      have hlinked := linked_evaluatePlace hplace
      rw [source.next_eq] at hlinked ⊢
      refine (hvalued.linked.append hlinked).snoc (fun r hr => ?_) fun _ => rfl
      rcases List.mem_cons.mp hr with rfl | hr
      · exact .inr ⟨op, place.width, _, place.result, rfl, lookIn_append_right (lookIn_ref place _),
          hwidth⟩
      · obtain ⟨kind, x, hx, hkind⟩ := hvalued.gives
        rw [List.mem_singleton.mp hr]
        exact .inl ⟨kind, x, lookIn_append_left hx, hkind⟩
  | call function arguments =>
      obtain ⟨callee, hcallee, h⟩ := bind_eq_ok.mp h
      obtain ⟨⟨code', refs⟩, hcode, h⟩ := bind_eq_ok.mp h
      cases h
      obtain ⟨hlinked, hlength, hrefs⟩ := valued_evaluateAll arguments hcode
      rw [List.append_assoc]
      exact hlinked.call (callee_eq_ok hcallee) (hlength.trans (length_of_callee hcallee)) hrefs none
  | ret value =>
      cases value with
      | none =>
          cases h
          exact .single rfl fun _ => rfl
      | some value =>
          obtain ⟨value', hvalue, h⟩ := bind_eq_ok.mp h
          cases h
          exact (valued_evaluate value hvalue).use rfl fun _ => rfl
  | timer value =>
      obtain ⟨value', hvalue, h⟩ := bind_eq_ok.mp h
      cases h
      exact (valued_evaluate value hvalue).use rfl fun _ => rfl
  | level | halt | pause | reset | restart | nop =>
      cases h
      exact .single rfl fun _ => rfl
  | block | branch | loop | breakLoop | continueLoop =>
      cases h
      exact .nil

end Expressions

/-- A piece is linked. -/
theorem Piece.linked {ctx : Context} {stmts : List Stmt} {start : Nat} {code : List Instruction}
    (h : Piece ctx stmts start code) : Linked ctx.program start code := by
  cases h with
  | marker name => exact .single rfl fun _ => rfl
  | jump target => exact .single rfl fun _ => rfl
  | test expected target _ hvalue =>
      exact (valued_evaluate _ hvalue).use rfl fun _ => rfl
  | simple _ _ hcode => exact linked_simpleCode hcode
  | ending => exact .single rfl fun _ => rfl

/-- **A row of pieces is linked.** -/
theorem Pieces.linked {ctx : Context} {stmts : List Stmt} {start : Nat} {code : List Instruction}
    (h : Pieces ctx stmts start code) : Linked ctx.program start code := by
  induction h with
  | nil => exact .nil
  | cons hpiece _ ih => exact hpiece.linked.append ih

theorem ne_markerName (label : String) (n : Nat) : label ≠ markerName label n := by
  intro h
  have hlength := congrArg String.length h
  rw [markerName, String.length_append, String.length_append] at hlength
  have hdot : ".".length = 1 := rfl
  omega

theorem entry_of_flatBody {ctx : Context} {body : List Op} (h : flatBody ctx = .ok body) :
    (codeOf body)[0]? = some (.marker ctx.function.label) := by
  obtain ⟨ops, markers, _, rfl⟩ := flatBody_eq_ok h
  rfl

/-- **The markers of a flat body have different names, the entry included.**  The name of a
numbered marker begins with the label of the function and is longer, so that it is never that of
the entry. -/
theorem markers_distinct {ctx : Context} {body : List Op} (h : flatBody ctx = .ok body) {i j : Nat}
    {name : String} (hi : (codeOf body)[i]? = some (.marker name))
    (hj : (codeOf body)[j]? = some (.marker name)) : i = j := by
  have hbehind : ∀ {k : Nat}, (codeOf body)[k + 1]? ≠ some (.marker ctx.function.label) := by
    intro k hk
    obtain ⟨ops, markers, hflattens, rfl⟩ := flatBody_eq_ok h
    obtain ⟨k', _, hk'⟩ := marks_framed_iff.mp (marks_iff.mpr ⟨by omega, hk⟩)
    obtain ⟨n, _, hname⟩ := hflattens.numbered.2.named k' _ hk'
    exact ne_markerName _ n hname
  have hentry := entry_of_flatBody h
  cases i with
  | zero =>
      cases j with
      | zero => rfl
      | succ j =>
          rw [hentry] at hi
          cases hi
          exact absurd hj hbehind
  | succ i =>
      cases j with
      | zero =>
          rw [hentry] at hj
          cases hj
          exact absurd hi hbehind
      | succ j =>
          exact distinct_of_flatBody h _ _ name (marks_iff.mpr ⟨by omega, hi⟩)
            (marks_iff.mpr ⟨by omega, hj⟩)

/-- The code of a flat body is well formed. -/
theorem wellFormed_of_flatBody {ctx : Context} {body : List Op} (h : flatBody ctx = .ok body) :
    WellFormed ctx.program (codeOf body) := by
  have hpieces := pieces_of_flatBody h
  obtain ⟨hshaped, hnodup⟩ := hpieces.nodup_named
  have hlinked := hpieces.linked
  have hlook : ∀ {r x}, lookIn 0 (codeOf body) r = some x → (codeOf body)[r]? = some x := by
    intro r x hx
    rwa [lookIn, if_pos (Nat.zero_le r), Nat.sub_zero] at hx
  refine ⟨?_, ?_, ?_, fun i j name => markers_distinct h, ?_, hlinked.seated.called,
    hlinked.seated.passed⟩
  · intro j user r huser hr
    have hlt := (hshaped.operand j user huser r hr).2
    rw [Nat.zero_add] at hlt
    refine ⟨hlt, ?_⟩
    rcases hlinked.fed user (List.mem_of_getElem? huser) r hr with
      ⟨kind, x, hx, hkind⟩ | ⟨op, width, value, place, hassign, hplace, hwidth⟩
    · exact ⟨x, hlook hx, .inl ⟨kind, hkind⟩⟩
    · exact ⟨place, hlook hplace, .inr ⟨op, width, value, hassign, hwidth⟩⟩
  · intro j user r huser hr
    have hself : user.operands.Nodup := by
      obtain ⟨hall, _⟩ := List.nodup_flatMap.mp hnodup
      exact hall user (List.mem_of_getElem? huser)
    exact ⟨List.count_eq_one_of_mem hself hr,
      fun j' user' huser' hr' => eq_of_mem_operands hnodup huser' huser hr' hr⟩
  · intro j user r k huser hr hrk hkj
    exact hpieces.inner_before huser hr k (Nat.le_of_lt hrk) hkj
  · intro i x target hx htarget
    obtain ⟨index, hmarks, _⟩ := pointed_of_flatBody h target
      (aims_iff.mpr ⟨x, List.mem_of_getElem? hx, htarget⟩)
    obtain ⟨hpos, hindex⟩ := marks_iff.mp hmarks
    exact ⟨index, hpos, hindex, fun other hother => markers_distinct h hother hindex⟩

/-- **Flat code is well formed.**  Whatever the types in a program, if it can be flattened, then the
code of every function of the result begins with the marker of its label.  An operand stands before
its user, gives a value or is the place of an assignment, and is used by nothing else and only once;
between the two only values are computed, so no marker, jump, branch, return, assignment or timer.
No two markers have one name, and every jump and branch names exactly one, behind the entry; and
every call stands right behind its parameters, of which there is one for each that its function
declares, in that order, behind all the values that they pass, and there are no others. -/
theorem ofModel_wellFormed {model : Model.Program} {flat : Program}
    (h : Program.ofModel model = .ok flat) {label : String} {f : Function}
    (hf : flat.find? label = some f) :
    WellFormed model (codeOf f.body) ∧ (codeOf f.body)[0]? = some (.marker label) := by
  obtain ⟨_, _, g, _, rfl, hof⟩ := exists_of_find?_ofModel h hf
  obtain ⟨body, hbody, hof⟩ := bind_eq_ok.mp hof
  cases hof
  show WellFormed model (codeOf (withLastUses body)) ∧ (codeOf (withLastUses body))[0]? = _
  rw [codeOf_withLastUses]
  exact ⟨wellFormed_of_flatBody hbody, entry_of_flatBody hbody⟩

/-- A program whose entry scales the elements of a log up to a limit. -/
def scaledToLimit : Model.Program :=
  let scaled : Expr := .call "scale" [.index "demo.log" (.var "i"), .binary .add (.var "i") (.int 1)]
  let entry : Model.Function :=
    ({ label := "demo.main" } : Model.Function).addSymbol "i" .word |>.withBody
      [.forever [.ifElse (.compare .gt scaled (.int 100)) .breakLoop none,
        .assign (.index "demo.log" (.var "i")) none scaled]]
  let scale : Model.Function :=
    ({ label := "demo.scale", returns := some .int } : Model.Function).addParameter "n" .int
      |>.addParameter "m" .int |>.withBody [.ret (some (.binary .mul (.var "n") (.var "m")))]
  let demo : Model.Module :=
    ((({} : Model.Module).addSymbol "log" (.ramArray 16)).addFunction entry).addFunction scale
  { name := "demo", modules := Table.empty.insert "demo" demo }

/-- The entry of `scaledToLimit` is well formed: its first call stands behind the two parameters of
`demo.scale`, and these behind the element and the sum that they pass. -/
theorem ofModel_wellFormed_scaledToLimit : ∃ flat f, Program.ofModel scaledToLimit = .ok flat ∧
    flat.find? "demo.main" = some f ∧ WellFormed scaledToLimit (codeOf f.body) ∧
    (codeOf f.body)[0]? = some (.marker "demo.main") ∧
    (codeOf f.body)[8]? = some (.parameter "demo.scale" "n" 4) ∧
    (codeOf f.body)[9]? = some (.parameter "demo.scale" "m" 7) ∧
    (codeOf f.body)[10]? = some (.call "demo.scale" (some .word)) := by
  have hcode : ((Program.ofModel scaledToLimit).toOption.bind (·.find? "demo.main")).map
      (fun f => ((codeOf f.body)[8]?, (codeOf f.body)[9]?, (codeOf f.body)[10]?)) =
        some (some (.parameter "demo.scale" "n" 4), some (.parameter "demo.scale" "m" 7),
          some (.call "demo.scale" (some .word))) := by
    decide +kernel
  obtain ⟨f, hf, hcode⟩ := Option.map_eq_some_iff.mp hcode
  obtain ⟨flat, hflat, hf⟩ := Option.bind_eq_some_iff.mp hf
  have hflat := toOption_eq_some.mp hflat
  obtain ⟨hformed, hentry⟩ := ofModel_wellFormed hflat hf
  simp only [Prod.mk.injEq] at hcode
  exact ⟨flat, f, hflat, hf, hformed, hentry, hcode⟩

end Flat

end Stackless
