import Mathlib.Data.List.ProdSigma
import Stackless.Compilation
import Stackless.Proofs.CallGraphs
import Stackless.Proofs.WellFormedness

/-!
# The order in which operands take effect

Operands become code from left to right.  A register or bit variable is read by no code of its own,
however: the op that names it only says where the value is, and what uses it fetches it.  A call
that stands between the two and assigns to the variable is done first.

* `Overtaken` — a call stands between the read of a global and its user;
* `overtakenIn` — where the operands of an expression ask for that: the read is an operand as it
  stands, and a later operand of the same operation has the call in it;
* `Flattens.overtaken_iff` — in the code of statements a call overtakes a read just where one of the
  statements asks for it;
* `leftToRight_iff` — so the operands in a function of a program keep their values from left to
  right, unless a statement asks for a call to overtake the read of what it assigns to;
* `operand_overtaken_bumpedSum` — a sum of which the first operand is read behind the call that is
  the second.
-/

namespace Stackless

namespace Flat

open Model (Stmt Expr)
open Relation (ReflTransGen)

/-- The global variable that an instruction reads from its register or bit. -/
def Instruction.globalRead? : Instruction → Option String
  | .register (.globalVar g) | .bit (.globalVar g) => some g
  | _ => none

/-- Some code calls a function. -/
def Invokes (code : List Instruction) (function : String) : Prop :=
  ∃ result, .call function result ∈ code

/-- In code that starts at an index, a function is called between the read of a global variable and
an op that uses the value. -/
def Overtaken (start : Nat) (code : List Instruction) (g function : String) : Prop :=
  ∃ (i c k : Nat) (x user : Instruction) (result : Option Width), i < c ∧ c < k ∧
    code[i]? = some x ∧ x.globalRead? = some g ∧ code[c]? = some (.call function result) ∧
    code[k]? = some user ∧ start + i ∈ user.operands

/-- One of the indices is that of the read of a global variable, behind which a function is called. -/
def Exposed (start : Nat) (code : List Instruction) (refs : List Nat) (g function : String) : Prop :=
  ∃ (i c : Nat) (x : Instruction) (result : Option Width), i < c ∧ code[i]? = some x ∧
    x.globalRead? = some g ∧ code[c]? = some (.call function result) ∧ start + i ∈ refs

section Code

variable {start : Nat} {xs ys code : List Instruction} {refs : List Nat} {g function : String}

@[simp]
theorem invokes_append : Invokes (xs ++ ys) function ↔ Invokes xs function ∨ Invokes ys function := by
  simp only [Invokes, List.mem_append, exists_or]

@[simp]
theorem invokes_nil : ¬Invokes [] function := by
  simp [Invokes]

/-- A single instruction calls a function if it is the call. -/
@[simp]
theorem invokes_singleton {x : Instruction} :
    Invokes [x] function ↔ ∃ result, x = .call function result := by
  simp [Invokes, eq_comm]

theorem invokes_snoc {user : Instruction} (h : ∀ function result, user ≠ .call function result) :
    Invokes (xs ++ [user]) function ↔ Invokes xs function := by
  simp [h]

@[simp]
theorem invokes_passing {label : String} {callee : Model.Function} :
    ¬Invokes (passing label callee refs) function := by
  rintro ⟨result, hmem⟩
  obtain ⟨_, _, _, hparameter⟩ := mem_passing hmem
  cases hparameter

theorem getElem?_behind (xs ys : List Instruction) (n : Nat) : (xs ++ ys)[xs.length + n]? = ys[n]? := by
  rw [List.getElem?_append_right (by omega), Nat.add_sub_cancel_left]

@[simp]
theorem overtaken_singleton {x : Instruction} : ¬Overtaken start [x] g function := by
  rintro ⟨i, c, k, _, _, _, hic, hck, _, _, _, huser, _⟩
  have hlt := (List.getElem?_eq_some_iff.mp huser).1
  rw [List.length_singleton] at hlt
  omega

/-- What is overtaken stays so when more stands behind it. -/
theorem Overtaken.append_left (h : Overtaken start xs g function) :
    Overtaken start (xs ++ ys) g function := by
  obtain ⟨i, c, k, x, user, result, hic, hck, hx, hread, hcall, huser, hmem⟩ := h
  have hk := (List.getElem?_eq_some_iff.mp huser).1
  refine ⟨i, c, k, x, user, result, hic, hck, ?_, hread, ?_, ?_, hmem⟩
  · rwa [List.getElem?_append_left (by omega)]
  · rwa [List.getElem?_append_left (by omega)]
  · rwa [List.getElem?_append_left hk]

/-- What uses nothing may stand behind. -/
theorem overtaken_plain (hy : ∀ y ∈ ys, y.operands = []) :
    Overtaken start (xs ++ ys) g function ↔ Overtaken start xs g function := by
  refine ⟨?_, Overtaken.append_left⟩
  rintro ⟨i, c, k, x, user, result, hic, hck, hx, hread, hcall, huser, hmem⟩
  by_cases hk : k < xs.length
  · rw [List.getElem?_append_left (by omega)] at hx hcall huser
    exact ⟨i, c, k, x, user, result, hic, hck, hx, hread, hcall, huser, hmem⟩
  · rw [List.getElem?_append_right (by omega)] at huser
    rw [hy user (List.mem_of_getElem? huser)] at hmem
    cases hmem

/-- **In pieces of code one after the other only what each says itself is overtaken**, as the second
uses nothing of the first. -/
theorem overtaken_append (hy : Shaped (start + xs.length) ys) :
    Overtaken start (xs ++ ys) g function ↔
      Overtaken start xs g function ∨ Overtaken (start + xs.length) ys g function := by
  constructor
  · rintro ⟨i, c, k, x, user, result, hic, hck, hx, hread, hcall, huser, hmem⟩
    by_cases hk : k < xs.length
    · rw [List.getElem?_append_left (by omega)] at hx hcall huser
      exact .inl ⟨i, c, k, x, user, result, hic, hck, hx, hread, hcall, huser, hmem⟩
    · obtain ⟨k', rfl⟩ : ∃ k', k = xs.length + k' := ⟨k - xs.length, by omega⟩
      rw [getElem?_behind] at huser
      have hrange := (hy.operand k' user huser _ hmem).1
      obtain ⟨i', rfl⟩ : ∃ i', i = xs.length + i' := ⟨i - xs.length, by omega⟩
      obtain ⟨c', rfl⟩ : ∃ c', c = xs.length + c' := ⟨c - xs.length, by omega⟩
      rw [getElem?_behind] at hx hcall
      rw [← Nat.add_assoc] at hmem
      exact .inr ⟨i', c', k', x, user, result, by omega, by omega, hx, hread, hcall, huser, hmem⟩
  · rintro (h | ⟨i, c, k, x, user, result, hic, hck, hx, hread, hcall, huser, hmem⟩)
    · exact h.append_left
    · rw [← getElem?_behind xs] at hx hcall huser
      rw [Nat.add_assoc] at hmem
      exact ⟨_, _, _, x, user, result, by omega, by omega, hx, hread, hcall, huser, hmem⟩

/-- **Users behind the code of their operands**, of which only the last may call a function: what
they use may have been overtaken in that code. -/
theorem overtaken_extend {users : List Instruction} {last : Instruction}
    (hrange : ∀ y ∈ users ++ [last], ∀ r ∈ y.operands, r < start + xs.length)
    (hquiet : ¬Invokes users function) :
    Overtaken start (xs ++ (users ++ [last])) g function ↔
      Overtaken start xs g function ∨ Exposed start xs (named (users ++ [last])) g function := by
  constructor
  · rintro ⟨i, c, k, x, user, result, hic, hck, hx, hread, hcall, huser, hmem⟩
    by_cases hk : k < xs.length
    · rw [List.getElem?_append_left (by omega)] at hx hcall huser
      exact .inl ⟨i, c, k, x, user, result, hic, hck, hx, hread, hcall, huser, hmem⟩
    · obtain ⟨k', rfl⟩ : ∃ k', k = xs.length + k' := ⟨k - xs.length, by omega⟩
      rw [getElem?_behind] at huser
      have hk' := (List.getElem?_eq_some_iff.mp huser).1
      rw [List.length_append, List.length_singleton] at hk'
      have huser := List.mem_of_getElem? huser
      have hi := hrange user huser _ hmem
      rw [List.getElem?_append_left (by omega)] at hx
      by_cases hc : c < xs.length
      · rw [List.getElem?_append_left hc] at hcall
        exact .inr ⟨i, c, x, result, hic, hx, hread, hcall, List.mem_flatMap.mpr ⟨user, huser, hmem⟩⟩
      · obtain ⟨c', rfl⟩ : ∃ c', c = xs.length + c' := ⟨c - xs.length, by omega⟩
        rw [getElem?_behind, List.getElem?_append_left (by omega)] at hcall
        exact absurd ⟨result, List.mem_of_getElem? hcall⟩ hquiet
  · rintro (h | ⟨i, c, x, result, hic, hx, hread, hcall, hmem⟩)
    · exact h.append_left
    · obtain ⟨user, huser, hmem⟩ := List.mem_flatMap.mp hmem
      obtain ⟨k, hk⟩ := List.mem_iff_getElem?.mp huser
      have hc := (List.getElem?_eq_some_iff.mp hcall).1
      refine ⟨i, c, xs.length + k, x, user, result, hic, by omega, ?_, hread, ?_, ?_, hmem⟩
      · rwa [List.getElem?_append_left (by omega)]
      · rwa [List.getElem?_append_left hc]
      · rwa [getElem?_behind]

/-- **A value in front of others is exposed to the calls of all of them**; and what else is exposed
stands among the others. -/
theorem exposed_cons (value : Evaluation)
    (hrefs : ∀ r ∈ refs, start + value.code.length ≤ r) :
    Exposed start (value.code ++ code) (value.ref start :: refs) g function ↔
      (value.result.globalRead? = some g ∧ Invokes code function) ∨
        Exposed (start + value.code.length) code refs g function := by
  have hlength := value.length_code
  have hresult : (value.code ++ code)[value.before.length]? = some value.result := by
    simp [Evaluation.code]
  constructor
  · rintro ⟨i, c, x, result, hic, hx, hread, hcall, hmem⟩
    rcases List.mem_cons.mp hmem with hself | hmem
    · obtain rfl : i = value.before.length := by
        unfold Evaluation.ref at hself
        omega
      obtain ⟨c', rfl⟩ : ∃ c', c = value.code.length + c' := ⟨c - value.code.length, by omega⟩
      rw [hresult] at hx
      rw [getElem?_behind] at hcall
      exact .inl ⟨Option.some.inj hx ▸ hread, result, List.mem_of_getElem? hcall⟩
    · have hi := hrefs _ hmem
      obtain ⟨i', rfl⟩ : ∃ i', i = value.code.length + i' := ⟨i - value.code.length, by omega⟩
      obtain ⟨c', rfl⟩ : ∃ c', c = value.code.length + c' := ⟨c - value.code.length, by omega⟩
      rw [getElem?_behind] at hx hcall
      rw [← Nat.add_assoc] at hmem
      exact .inr ⟨i', c', x, result, by omega, hx, hread, hcall, hmem⟩
  · rintro (⟨hread, result, hmem⟩ | ⟨i, c, x, result, hic, hx, hread, hcall, hmem⟩)
    · obtain ⟨c, hc⟩ := List.mem_iff_getElem?.mp hmem
      rw [← getElem?_behind value.code] at hc
      exact ⟨_, _, _, result, by omega, hresult, hread, hc, List.mem_cons_self⟩
    · rw [← getElem?_behind value.code] at hx hcall
      rw [Nat.add_assoc] at hmem
      exact ⟨_, _, x, result, by omega, hx, hread, hcall, List.mem_cons_of_mem _ hmem⟩

@[simp]
theorem exposed_nil : ¬Exposed start code [] g function := by
  rintro ⟨_, _, _, _, _, _, _, _, hmem⟩
  cases hmem

@[simp]
theorem exposed_single (value : Evaluation) :
    ¬Exposed start value.code [value.ref start] g function := by
  have hcons : Exposed start (value.code ++ []) (value.ref start :: []) g function ↔ _ :=
    exposed_cons value (by simp)
  rw [List.append_nil] at hcons
  simp [hcons]

end Code

section Users

variable {start : Nat} {xs : List Instruction} {left right value : Evaluation} {user : Instruction}
  {g function : String}

/-- A single user behind the code of its operands. -/
theorem overtaken_snoc (hrange : ∀ r ∈ user.operands, r < start + xs.length) :
    Overtaken start (xs ++ [user]) g function ↔
      Overtaken start xs g function ∨ Exposed start xs user.operands g function := by
  rw [← List.nil_append [user], overtaken_extend ?_ invokes_nil, List.nil_append, named_singleton]
  intro y hy
  rw [List.mem_singleton.mp hy]
  exact hrange

/-- A value in front of its user is not overtaken. -/
theorem overtaken_use (huser : user.operands = [value.ref start]) :
    Overtaken start (value.code ++ [user]) g function ↔ Overtaken start value.code g function := by
  have hrange := value.ref_range start
  rw [overtaken_snoc fun r hr => ?_, huser, or_iff_left (exposed_single value)]
  rw [huser] at hr
  rw [List.mem_singleton.mp hr]
  omega

/-- **Of two values in front of their user the first is exposed to the calls of the second.** -/
theorem overtaken_pair (hright : Shaped (left.next start) right.code)
    (huser : user.operands.Perm [left.ref start, right.ref (left.next start)]) :
    Overtaken start (left.code ++ right.code ++ [user]) g function ↔
      (Overtaken start left.code g function ∨ Overtaken (left.next start) right.code g function) ∨
        left.result.globalRead? = some g ∧ Invokes right.code function := by
  rw [left.next_eq] at hright huser ⊢
  have hrange := left.ref_range start
  have hrange' := right.ref_range (start + left.code.length)
  have hbelow : ∀ r ∈ user.operands, r < start + (left.code ++ right.code).length := by
    intro r hr
    rw [huser.mem_iff] at hr
    rw [List.length_append]
    rcases List.mem_cons.mp hr with rfl | hr
    · omega
    · rw [List.mem_singleton.mp hr]
      omega
  have hexposed : Exposed start (left.code ++ right.code) user.operands g function ↔
      Exposed start (left.code ++ right.code)
        [left.ref start, right.ref (start + left.code.length)] g function := by
    simp only [Exposed, huser.mem_iff]
  rw [overtaken_snoc hbelow, overtaken_append hright, hexposed, exposed_cons left fun r hr => ?_,
    or_iff_left (exposed_single right)]
  rw [List.mem_singleton.mp hr]
  exact hrange'.1

/-- **A call exposes its arguments** to the calls of those behind them. -/
theorem overtaken_call {refs : List Nat} {label : String} {callee : Model.Function}
    {result : Option Width} (hlength : refs.length = callee.parameters.length)
    (hrefs : ∀ r ∈ refs, r < start + xs.length) :
    Overtaken start (xs ++ (passing label callee refs ++ [.call label result])) g function ↔
      Overtaken start xs g function ∨ Exposed start xs refs g function := by
  have hnamed : named (passing label callee refs ++ [.call label result]) = refs := by
    rw [named_append, named_singleton, named_passing, ← hlength, List.take_length]
    exact List.append_nil refs
  rw [overtaken_extend (fun y hy r hr => ?_) invokes_passing, hnamed]
  rcases List.mem_append.mp hy with hy | hy
  · obtain ⟨name, r', hr', rfl⟩ := mem_passing hy
    rw [List.mem_singleton.mp hr]
    exact hrefs r' hr'
  · rw [List.mem_singleton.mp hy] at hr
    cases hr

end Users

/-- The global variable that a label means, if it is kept in a register or in a bit. -/
def Context.global? (ctx : Context) (label : String) : Option String :=
  match ctx.symbol label with
  | .ok (.globalVar g, symbol) =>
    if symbol.storage = .register ∨ symbol.storage = .bit then some g else none
  | _ => none

/-- The global variable that an expression is, if it is nothing else. -/
def readOf? (ctx : Context) : Expr → Option String
  | .var label => ctx.global? label
  | _ => none

mutual

/-- The functions that are called where an expression is evaluated, in the order of the calls:
arguments before the call that they are for. -/
def callsOf (ctx : Context) : Expr → List String
  | .int _ | .bool _ | .var _ => []
  | .index _ index => callsOf ctx index
  | .unary _ operand => callsOf ctx operand
  | .binary _ lhs rhs | .compare _ lhs rhs => callsOf ctx lhs ++ callsOf ctx rhs
  | .call function arguments => callsOfAll ctx arguments ++ [ctx.calleeLabel function]

/-- The functions that are called where expressions are evaluated one after another. -/
def callsOfAll (ctx : Context) : List Expr → List String
  | [] => []
  | e :: rest => callsOf ctx e ++ callsOfAll ctx rest

end

/-- A read, if it is one, with each of the calls that come behind it. -/
def overtakenBy (read : Option String) (calls : List String) : List (String × String) :=
  read.toList.product calls

@[simp]
theorem mem_overtakenBy {read : Option String} {calls : List String} {g function : String} :
    (g, function) ∈ overtakenBy read calls ↔ read = some g ∧ function ∈ calls := by
  simp [overtakenBy]

mutual

/-- The global variables that an expression has as operands in front of operands with calls, each
with the called functions. -/
def overtakenIn (ctx : Context) : Expr → List (String × String)
  | .int _ | .bool _ | .var _ => []
  | .index label index =>
    overtakenIn ctx index ++ overtakenBy (ctx.global? label) (callsOf ctx index)
  | .unary _ operand => overtakenIn ctx operand
  | .binary _ lhs rhs | .compare _ lhs rhs =>
    overtakenIn ctx lhs ++ overtakenIn ctx rhs ++ overtakenBy (readOf? ctx lhs) (callsOf ctx rhs)
  | .call _ arguments => overtakenInAll ctx arguments

/-- The same for the arguments of a call. -/
def overtakenInAll (ctx : Context) : List Expr → List (String × String)
  | [] => []
  | e :: rest =>
    overtakenIn ctx e ++ overtakenInAll ctx rest ++
      overtakenBy (readOf? ctx e) (callsOfAll ctx rest)

end

/-- The same for a statement, without the statements inside it.  The value of an assignment is
evaluated before its target. -/
def overtakenAt (ctx : Context) : Stmt → List (String × String)
  | .branch condition _ _ => overtakenIn ctx condition
  | .assign target _ value =>
    overtakenIn ctx value ++ overtakenIn ctx target ++
      overtakenBy (readOf? ctx value) (callsOf ctx target)
  | .call _ arguments => overtakenInAll ctx arguments
  | .ret (some value) | .timer value => overtakenIn ctx value
  | _ => []

/-- What an evaluation reads, if its value is the read of a global, the functions that its code
calls, and the reads that are overtaken in the code, each with the called function. -/
structure Evaluation.Traces (start : Nat) (out : Evaluation) (read : Option String)
    (calls : List String) (overtaken : List (String × String)) : Prop where
  read : out.result.globalRead? = read
  calls : ∀ function, Invokes out.code function ↔ function ∈ calls
  overtaken : ∀ g function, Overtaken start out.code g function ↔ (g, function) ∈ overtaken

namespace Evaluation.Traces

variable {start : Nat} {value left right : Evaluation} {user : Instruction} {width : Width}
  {read read' : Option String} {calls calls' : List String} {overtaken overtaken' : List (String × String)}

/-- A value that is a single instruction, and no call. -/
theorem single (hsingle : value.before = [])
    (hcall : ∀ function result, value.result ≠ .call function result) :
    value.Traces start value.result.globalRead? [] [] := by
  have hcode : value.code = [value.result] := by rw [Evaluation.code, hsingle, List.nil_append]
  refine ⟨rfl, fun function => ?_, fun g function => ?_⟩
  · rw [hcode]
    simp [hcall]
  · rw [hcode]
    simp

/-- A value computed from another. -/
theorem use (h : value.Traces start read calls overtaken)
    (huser : user.operands = [value.ref start]) (hread : user.globalRead? = none)
    (hcall : ∀ function result, user ≠ .call function result) :
    (Evaluation.mk value.code user width).Traces start none calls overtaken := by
  refine ⟨hread, fun function => ?_, fun g function => ?_⟩
  · rw [← h.calls]
    exact invokes_snoc hcall
  · rw [← h.overtaken]
    exact overtaken_use huser

/-- **A value computed from two others**, the first of which is exposed to the second. -/
theorem pair (hleft : left.Traces start read calls overtaken)
    (hright : right.Traces (left.next start) read' calls' overtaken')
    (hshaped : Shaped (left.next start) right.code)
    (huser : user.operands.Perm [left.ref start, right.ref (left.next start)])
    (hread : user.globalRead? = none) (hcall : ∀ function result, user ≠ .call function result) :
    (Evaluation.mk (left.code ++ right.code) user width).Traces start none (calls ++ calls')
      (overtaken ++ overtaken' ++ overtakenBy read calls') := by
  refine ⟨hread, fun function => ?_, fun g function => ?_⟩
  · rw [List.mem_append, ← hleft.calls, ← hright.calls]
    exact (invokes_snoc hcall).trans invokes_append
  · rw [List.mem_append, List.mem_append, mem_overtakenBy, ← hleft.read, ← hleft.overtaken,
      ← hright.overtaken, ← hright.calls]
    exact overtaken_pair hshaped huser

end Evaluation.Traces

section Expressions

variable {ctx : Context} {start : Nat}

/-- The read of a variable reads the global that its label means. -/
theorem globalRead?_readVar {label : String} {var : Var} {symbol : Model.Symbol}
    (h : ctx.symbol label = .ok (var, symbol)) :
    (readVar var symbol).result.globalRead? = ctx.global? label := by
  have hliteral : (literalOf symbol).result.globalRead? = none := by
    unfold literalOf
    split <;> rfl
  rw [readVar, Context.global?, h]
  cases hstorage : symbol.storage with
  | rom =>
      have hnone : ∀ array : Bool, (if array = true then Evaluation.single (.rom var) .word
          else literalOf symbol).result.globalRead? = none := by
        intro array
        cases array with
        | true => rfl
        | false => exact hliteral
      cases var with
      | localVar name => exact hnone _
      | globalVar g => simpa [hstorage] using hnone symbol.isArray
  | _ =>
      cases var with
      | localVar name => rfl
      | globalVar g => simp [hstorage, Evaluation.single, Instruction.globalRead?]

theorem globalRead?_arrayBase? {label : String} {var : Var} {symbol : Model.Symbol}
    {array : Instruction} {space : Space} (h : ctx.symbol label = .ok (var, symbol))
    (harray : arrayBase? var symbol = some (array, space)) :
    array.globalRead? = ctx.global? label := by
  rw [Context.global?, h]
  unfold arrayBase? at harray
  split at harray
  all_goals cases harray
  all_goals cases var with
    | localVar name => rfl
    | globalVar g => simp [*, Instruction.globalRead?]

/-- The read of a variable is no call. -/
theorem readVar_ne_call (var : Var) (symbol : Model.Symbol) (function : String)
    (result : Option Width) : (readVar var symbol).result ≠ .call function result := by
  have hliteral : (literalOf symbol).result ≠ .call function result := by
    unfold literalOf
    split <;> simp [Evaluation.single]
  unfold readVar
  cases symbol.storage with
  | rom =>
      cases symbol.isArray with
      | true => simp [Evaluation.single]
      | false => exact hliteral
  | _ => simp [Evaluation.single]

/-- The base of an array traces what it reads. -/
theorem traces_base {array : Instruction} (h : array.isBase = true) :
    (Evaluation.single array .word).Traces start array.globalRead? [] [] :=
  .single rfl fun function result hcall => by
    have hcall : array = .call function result := hcall
    rw [hcall] at h
    cases h

/-- A call behind its arguments. -/
theorem traces_call {function : String} {arguments : List Expr} {callee : Model.Function}
    {code : List Instruction} {refs : List Nat}
    (hcallee : ctx.callee (ctx.calleeLabel function) arguments.length = .ok callee)
    (hcode : evaluateAll ctx start arguments = .ok (code, refs))
    (htraces : (∀ function, Invokes code function ↔ function ∈ callsOfAll ctx arguments) ∧
      ∀ g function, Overtaken start code g function ∨ Exposed start code refs g function ↔
        (g, function) ∈ overtakenInAll ctx arguments) (result : Option Width) :
    (∀ called, Invokes (code ++ passing (ctx.calleeLabel function) callee refs ++
        [.call (ctx.calleeLabel function) result]) called ↔
      called ∈ callsOfAll ctx arguments ++ [ctx.calleeLabel function]) ∧
    ∀ g called, Overtaken start (code ++ passing (ctx.calleeLabel function) callee refs ++
        [.call (ctx.calleeLabel function) result]) g called ↔
      (g, called) ∈ overtakenInAll ctx arguments := by
  obtain ⟨hcalls, hovertaken⟩ := htraces
  obtain ⟨_, hlength, _⟩ := valued_evaluateAll arguments hcode
  have hrefs := (evaluateAll_computes arguments hcode).2
  refine ⟨fun called => ?_, fun g called => ?_⟩
  · rw [List.mem_append, List.mem_singleton, ← hcalls]
    simp [eq_comm]
  · rw [← hovertaken, List.append_assoc]
    exact overtaken_call (hlength.trans (length_of_callee hcallee)) fun r hr => (hrefs r hr).2

mutual

/-- **The code of an expression traces its operands.** -/
theorem traces_evaluate :
    ∀ (e : Expr) {start : Nat} {out : Evaluation}, evaluate ctx start e = .ok out →
      out.Traces start (readOf? ctx e) (callsOf ctx e) (overtakenIn ctx e)
  | .int value, start, out, h => by
    cases h
    exact .single rfl (by simp [Evaluation.single])
  | .bool value, start, out, h => by
    cases h
    exact .single rfl (by simp [Evaluation.single])
  | .var label, start, out, h => by
    obtain ⟨⟨var, symbol⟩, hsymbol, h⟩ := bind_eq_ok.mp h
    cases h
    have hread := globalRead?_readVar hsymbol
    rw [readOf?, ← hread]
    exact .single (readVar_single var symbol) (readVar_ne_call var symbol)
  | .index label index, start, out, h => by
    obtain ⟨⟨var, symbol⟩, hsymbol, h⟩ := bind_eq_ok.mp h
    obtain ⟨⟨array, space⟩, harray, h⟩ := bind_eq_ok.mp h
    obtain ⟨value, hvalue, h⟩ := bind_eq_ok.mp h
    cases h
    have harray := orError_eq_ok.mp harray
    have hbase : (Evaluation.single array .word).Traces start array.globalRead? [] [] :=
      traces_base (isBase_arrayBase? harray)
    rw [globalRead?_arrayBase? hsymbol harray] at hbase
    exact hbase.pair (traces_evaluate index hvalue) (evaluate_computes index hvalue).shaped
      (.refl _) rfl (by simp)
  | .unary op operand, start, out, h => by
    obtain ⟨value, hvalue, h⟩ := bind_eq_ok.mp h
    cases h
    exact (traces_evaluate operand hvalue).use rfl rfl (by simp)
  | .binary op lhs rhs, start, out, h => by
    obtain ⟨left, hleft, h⟩ := bind_eq_ok.mp h
    obtain ⟨right, hright, h⟩ := bind_eq_ok.mp h
    cases h
    exact (traces_evaluate lhs hleft).pair (traces_evaluate rhs hright)
      (evaluate_computes rhs hright).shaped (.refl _) rfl (by simp)
  | .compare op lhs rhs, start, out, h => by
    obtain ⟨left, hleft, h⟩ := bind_eq_ok.mp h
    obtain ⟨right, hright, h⟩ := bind_eq_ok.mp h
    cases h
    exact (traces_evaluate lhs hleft).pair (traces_evaluate rhs hright)
      (evaluate_computes rhs hright).shaped (.refl _) rfl (by simp)
  | .call function arguments, start, out, h => by
    obtain ⟨callee, hcallee, h⟩ := bind_eq_ok.mp h
    obtain ⟨⟨code, refs⟩, hcode, h⟩ := bind_eq_ok.mp h
    have hcall := fun result => traces_call hcallee hcode (traces_evaluateAll arguments hcode) result
    cases hreturns : callee.returns with
    | none =>
        rw [hreturns] at h
        cases h
    | some type =>
        rw [hreturns] at h
        cases h
        obtain ⟨hcalls, hovertaken⟩ := hcall (some (resultWidth type))
        exact ⟨rfl, hcalls, hovertaken⟩

/-- So does that of expressions, one after the other, of which all values are used behind them. -/
theorem traces_evaluateAll :
    ∀ (es : List Expr) {start : Nat} {code : List Instruction} {refs : List Nat},
      evaluateAll ctx start es = .ok (code, refs) →
      (∀ function, Invokes code function ↔ function ∈ callsOfAll ctx es) ∧
        ∀ g function, Overtaken start code g function ∨ Exposed start code refs g function ↔
          (g, function) ∈ overtakenInAll ctx es
  | [], start, code, refs, h => by
    cases h
    refine ⟨fun function => ?_, fun g function => ?_⟩
    · simp [callsOfAll]
    · simp [overtakenInAll, Overtaken]
  | e :: rest, start, code, refs, h => by
    obtain ⟨value, hvalue, h⟩ := bind_eq_ok.mp h
    obtain ⟨⟨code', refs'⟩, hrest, h⟩ := bind_eq_ok.mp h
    cases h
    rw [value.next_eq] at hrest
    obtain ⟨hcomputes, hrefs⟩ := evaluateAll_computes rest hrest
    have htraces := traces_evaluate e hvalue
    obtain ⟨hcalls, hovertaken⟩ := traces_evaluateAll rest hrest
    refine ⟨fun function => ?_, fun g function => ?_⟩
    · rw [callsOfAll, List.mem_append, invokes_append, htraces.calls, hcalls]
    · rw [overtakenInAll, List.mem_append, List.mem_append, mem_overtakenBy, ← htraces.read,
        ← htraces.overtaken, ← hovertaken, ← hcalls, overtaken_append hcomputes.shaped,
        exposed_cons value fun r hr => (hrefs r hr).1]
      tauto

end

/-- So does that of a target. -/
theorem traces_evaluatePlace {e : Expr} {place : Evaluation}
    (h : evaluatePlace ctx start e = .ok place) :
    place.Traces start place.result.globalRead? (callsOf ctx e) (overtakenIn ctx e) := by
  unfold evaluatePlace at h
  split at h
  · obtain ⟨⟨var, symbol⟩, _, h⟩ := bind_eq_ok.mp h
    have hwrite := orError_eq_ok.mp h
    refine .single (writeVar?_single hwrite) ?_
    unfold writeVar? at hwrite
    split at hwrite
    all_goals cases hwrite
    all_goals simp [Evaluation.single]
  · obtain ⟨⟨var, symbol⟩, hsymbol, h⟩ := bind_eq_ok.mp h
    obtain ⟨array, harray, h⟩ := bind_eq_ok.mp h
    obtain ⟨value, hvalue, h⟩ := bind_eq_ok.mp h
    cases h
    have harray := orError_eq_ok.mp harray
    have hbase : (Evaluation.single array .word).Traces start array.globalRead? [] [] :=
      traces_base (isBase_writableBase? harray)
    rw [globalRead?_arrayBase? hsymbol (arrayBase?_of_writableBase? harray)] at hbase
    exact hbase.pair (traces_evaluate _ hvalue) (evaluate_computes _ hvalue).shaped (.refl _) rfl
      (by simp)
  · cases h

/-- **What is overtaken in the code of a simple statement.** -/
theorem overtaken_simpleCode {stmt : Stmt} {code : List Instruction} {g function : String}
    (hsimple : isSimple stmt = true) (h : simpleCode ctx start stmt = .ok code) :
    Overtaken start code g function ↔ (g, function) ∈ overtakenAt ctx stmt := by
  cases stmt with
  | assign target op value =>
      obtain ⟨source, hsource, h⟩ := bind_eq_ok.mp h
      obtain ⟨place, hplace, h⟩ := bind_eq_ok.mp h
      cases h
      have hpair : (Evaluation.mk (source.code ++ place.code) (.assign op place.width
          (place.ref (source.next start)) (source.ref start)) place.width).Traces start none _ _ :=
        (traces_evaluate value hsource).pair (traces_evaluatePlace hplace)
          (evaluatePlace_computes hplace).shaped (.swap _ _ []) rfl (by simp)
      exact hpair.overtaken g function
  | call function arguments =>
      obtain ⟨callee, hcallee, h⟩ := bind_eq_ok.mp h
      obtain ⟨⟨code', refs⟩, hcode, h⟩ := bind_eq_ok.mp h
      cases h
      exact (traces_call hcallee hcode (traces_evaluateAll arguments hcode) none).2 g _
  | ret value =>
      cases value with
      | none =>
          cases h
          simp [overtakenAt]
      | some value =>
          obtain ⟨value', hvalue, h⟩ := bind_eq_ok.mp h
          cases h
          exact (overtaken_use rfl).trans ((traces_evaluate value hvalue).overtaken g function)
  | timer value =>
      obtain ⟨value', hvalue, h⟩ := bind_eq_ok.mp h
      cases h
      exact (overtaken_use rfl).trans ((traces_evaluate value hvalue).overtaken g function)
  | level | halt | pause | reset | restart | nop =>
      cases h
      simp [overtakenAt]
  | block | branch | loop | breakLoop | continueLoop => cases hsimple

/-- What is overtaken in the test of a condition. -/
theorem overtaken_test {condition : Expr} {value : Evaluation} {g function : String}
    (h : evaluate ctx start (polarity condition).1 = .ok value) (expected : Bool) (target : Target) :
    Overtaken start (value.code ++ [.branch expected (value.ref start) target]) g function ↔
      (g, function) ∈ overtakenIn ctx condition := by
  have hpolarity : overtakenIn ctx (polarity condition).1 = overtakenIn ctx condition := by
    unfold polarity
    split <;> rfl
  rw [← hpolarity, ← (traces_evaluate _ h).overtaken]
  exact overtaken_use rfl

/-- Nothing is evaluated where a statement is but a `break` or a `continue`. -/
theorem overtakenAt_exit {stmt : Stmt} {exit : LoopExit} (h : loopExit? stmt = some exit) :
    stmt.parts.flatMap (overtakenAt ctx) = [] := by
  refine loopExit?_induction (P := fun stmt _ => stmt.parts.flatMap (overtakenAt ctx) = []) rfl rfl
    (fun own stmt exit ih => ?_) h
  have hparts : (Stmt.block [⟨own, stmt⟩]).parts = stmt.parts := by
    simp [Stmt.parts, Model.partsAll, Model.partsLocated]
  rw [hparts]
  exact ih

end Expressions

/-- A test in front of other code. -/
theorem overtaken_behind_test {ctx : Context} {start : Nat} {condition : Expr} {value : Evaluation}
    {ys : List Instruction} {g function : String}
    (h : evaluate ctx start (polarity condition).1 = .ok value) (expected : Bool) (target : Target)
    (hys : Shaped (value.next start + 1) ys) :
    Overtaken start (value.code ++ [.branch expected (value.ref start) target] ++ ys) g function ↔
      (g, function) ∈ overtakenIn ctx condition ∨ Overtaken (value.next start + 1) ys g function := by
  have hlength : start + (value.code ++ [Instruction.branch expected (value.ref start) target]).length =
      value.next start + 1 := by
    rw [value.next_eq, List.length_append, List.length_singleton, Nat.add_assoc]
  rw [← hlength] at hys ⊢
  rw [overtaken_append hys, overtaken_test h]

/-- **What is overtaken in the code of statements** is what one of them asks for. -/
theorem Flattens.overtaken_iff {ctx : Context} {loop : Option LoopMarkers}
    {position : Option Position} {start markers final : Nat} {stmt : Stmt} {ops : List Op}
    {g function : String} (h : Flattens ctx loop position start markers stmt ops final) :
    Overtaken start (codeOf ops) g function ↔
      (g, function) ∈ stmt.parts.flatMap (overtakenAt ctx) := by
  induction h with
  | nil => simp [Overtaken, codeOf, Stmt.parts, Model.partsAll]
  | @cons loop position start markers own stmt rest first others middle final _ hothers ihfirst
      ihothers =>
      have hparts : (Stmt.block (⟨own, stmt⟩ :: rest)).parts = stmt.parts ++ (Stmt.block rest).parts := by
        simp [Stmt.parts, Model.partsAll, Model.partsLocated]
      have hshaped := hothers.shaped
      rw [← length_codeOf] at hshaped ihothers
      rw [codeOf_append, overtaken_append hshaped, ihfirst, ihothers, hparts, List.flatMap_append,
        List.mem_append]
  | exit hvalue hexit _ =>
      rw [codeOf_opsAt, overtaken_test hvalue]
      simp [Stmt.parts, Model.partsLocated, overtakenAt, overtakenAt_exit hexit]
  | exitElse hvalue hexit _ hothers ih =>
      rw [codeOf_append, codeOf_opsAt, overtaken_behind_test hvalue _ _ hothers.shaped, ih]
      simp [Stmt.parts, Model.partsLocated, overtakenAt, overtakenAt_exit hexit]
  | choose hvalue _ hbody ih =>
      simp only [codeOf_append, codeOf_opsAt]
      rw [overtaken_plain (by simp [Instruction.operands]),
        overtaken_behind_test hvalue _ _ hbody.shaped, ih]
      simp [Stmt.parts, Model.partsLocated, overtakenAt]
  | @chooseElse loop position start markers condition own stmt own' stmt' value body middle others
      final hvalue _ hbody hothers ihbody ihothers =>
      simp only [codeOf_append, codeOf_opsAt]
      have hlength : value.next start + 1 + body.length + 2 = start + (value.code ++
          [Instruction.branch (polarity condition).2 (value.ref start)
            { marker := markerName ctx.function.label (markers + 1) }] ++ codeOf body ++
          [Instruction.jump { marker := markerName ctx.function.label (middle + 1) },
            Instruction.marker (markerName ctx.function.label (markers + 1))]).length := by
        rw [value.next_eq]
        simp only [List.length_append, List.length_cons, List.length_nil, length_codeOf]
        omega
      have hshaped := hothers.shaped
      rw [hlength] at hshaped ihothers
      rw [overtaken_plain (by simp [Instruction.operands]), overtaken_append hshaped, ihothers,
        overtaken_plain (by simp [Instruction.operands]),
        overtaken_behind_test hvalue _ _ hbody.shaped, ihbody]
      simp [Stmt.parts, Model.partsLocated, overtakenAt, or_assoc]
  | loop hbody ih =>
      simp only [codeOf_append, codeOf_opsAt]
      rw [overtaken_plain (by simp [Instruction.operands]), overtaken_append hbody.shaped,
        or_iff_right overtaken_singleton]
      exact ih
  | breakLoop _ =>
      rw [codeOf_opsAt]
      simp [Stmt.parts, overtakenAt]
  | continueLoop _ =>
      rw [codeOf_opsAt]
      simp [Stmt.parts, overtakenAt]
  | @simple _ _ _ _ stmt _ hsimple hcode =>
      have hself : stmt.parts = [stmt] := by
        cases stmt with
        | block | branch | loop => cases hsimple
        | _ => simp [Stmt.parts]
      rw [codeOf_opsAt, overtaken_simpleCode hsimple hcode, hself, List.flatMap_singleton]

/-- **What is overtaken in a flat body** is what a statement of its function asks for. -/
theorem overtaken_of_flatBody {ctx : Context} {body : List Op} {g function : String}
    (h : flatBody ctx = .ok body) : Overtaken 0 (codeOf body) g function ↔
      (g, function) ∈ ctx.function.statements.flatMap (overtakenAt ctx) := by
  obtain ⟨ops, markers, hflattens, rfl⟩ := flatBody_eq_ok h
  have hstatements : ctx.function.statements = (Stmt.block ctx.function.body).parts := by
    rw [Model.Function.statements, Stmt.parts]
  have hending : ∀ y ∈ codeOf (if endsInReturn (opsAt none [.marker ctx.function.label] ++ ops)
      then [] else opsAt none [.ret none]), y.operands = [] := by
    split
    · simp [codeOf]
    · simp [Instruction.operands]
  rw [codeOf_append, overtaken_plain hending, codeOf_append, codeOf_opsAt,
    overtaken_append hflattens.shaped, or_iff_right overtaken_singleton, hstatements]
  exact hflattens.overtaken_iff

/-- A call of a function assigns to a global variable: an assignment to it stands in the function or
in one that is called from there, directly or not. -/
def Alters (p : Program) (function g : String) : Prop :=
  ∃ writer f, ReflTransGen (Directly p) function writer ∧ p.find? writer = some f ∧
    ∃ (j target value : Nat) (op : Option Model.MathOp) (width : Width) (place : Instruction),
      (codeOf f.body)[j]? = some (.assign op width target value) ∧
      (codeOf f.body)[target]? = some place ∧ place.globalRead? = some g

/-- Operands keep the values that they had from left to right: no call that stands between the read
of a global variable and its user assigns to the variable. -/
def LeftToRight (p : Program) (f : Function) : Prop :=
  ∀ g function, Overtaken 0 (codeOf f.body) g function → ¬Alters p function g

/-- **Operands keep their values just where no later operand calls for a change.**  Take any program
that can be flattened, any function of the result, and its source.  A call of a function stands
between the read of a global register or bit and the user of the value if and only if some statement
has the variable itself as an operand and a call of the function in a later operand of the same
operation: on the two sides of an operation or comparison, in two arguments of a call, as an array
and in its index, or as the value of an assignment and in the index of its target.  So operands take
effect from left to right if and only if in no such place the function assigns to the variable,
itself or through what it calls; a variable that is part of a larger operand is read in time. -/
theorem leftToRight_iff {model : Model.Program} {flat : Program}
    (h : Program.ofModel model = .ok flat) {label : String} {f : Function}
    (hf : flat.find? label = some f) :
    ∃ m ∈ model.modules.values, ∃ source ∈ m.functions.values, source.label = label ∧
      Function.ofModel model source = .ok f ∧
      (∀ g function, Overtaken 0 (codeOf f.body) g function ↔
        ∃ stmt ∈ source.statements, (g, function) ∈ overtakenAt ⟨model, source⟩ stmt) ∧
      (LeftToRight flat f ↔ ∀ stmt ∈ source.statements, ∀ g function,
        (g, function) ∈ overtakenAt ⟨model, source⟩ stmt → ¬Alters flat function g) := by
  obtain ⟨m, hm, source, hsource, hlabel, hof⟩ := exists_of_find?_ofModel h hf
  obtain ⟨body, hbody, hbody'⟩ := bind_eq_ok.mp hof
  have hcode : codeOf f.body = codeOf body := by
    cases hbody'
    exact codeOf_withLastUses body
  have hovertaken : ∀ g function, Overtaken 0 (codeOf f.body) g function ↔
      ∃ stmt ∈ source.statements, (g, function) ∈ overtakenAt ⟨model, source⟩ stmt := by
    intro g function
    rw [hcode, overtaken_of_flatBody hbody, List.mem_flatMap]
  refine ⟨m, hm, source, hsource, hlabel, hof, hovertaken, fun hall stmt hstmt g function hmem => ?_,
    fun hall g function hread => ?_⟩
  · exact hall g function ((hovertaken g function).mpr ⟨stmt, hstmt, hmem⟩)
  · obtain ⟨stmt, hstmt, hmem⟩ := (hovertaken g function).mp hread
    exact hall stmt hstmt g function hmem

/-- A program whose entry adds what another function gives to a global variable, which that function
adds to first. -/
def bumpedSum : Model.Program :=
  let entry : Model.Function :=
    ({ label := "demo.main" } : Model.Function).addSymbol "x" .word |>.withBody
      [.assign (.var "x") none (.binary .add (.var "demo.a") (.call "bump" []))]
  let bump : Model.Function :=
    ({ label := "demo.bump", returns := some .int } : Model.Function).withBody
      [.assign (.var "demo.a") (some .add) (.int 1), .ret (some (.var "demo.a"))]
  let demo : Model.Module :=
    ((({} : Model.Module).addSymbol "a" .word).addFunction entry).addFunction bump
  { name := "demo", modules := Table.empty.insert "demo" demo }

/-- The code of the entry of `bumpedSum`. -/
def sumCode : List Instruction :=
  [.marker "demo.main", .register (.globalVar "demo.a"), .call "demo.bump" (some .word),
    .math .add .word 1 (some 2), .register (.localVar "x"), .assign none .word 4 3, .ret none]

/-- The code of the function that it calls. -/
def bumpCode : List Instruction :=
  [.marker "demo.bump", .int 1, .register (.globalVar "demo.a"), .assign (some .add) .word 2 1,
    .register (.globalVar "demo.a"), .ret (some 4)]

/-- What `bumpedSum` is flattened to. -/
theorem ofModel_bumpedSum : ∃ flat entry bump, Program.ofModel bumpedSum = .ok flat ∧
    flat.find? "demo.main" = some entry ∧ flat.find? "demo.bump" = some bump ∧
    codeOf entry.body = sumCode ∧ codeOf bump.body = bumpCode := by
  have hcodes : ((Program.ofModel bumpedSum).toOption.bind fun flat =>
      (flat.find? "demo.main").bind fun entry => (flat.find? "demo.bump").map fun bump =>
        (codeOf entry.body, codeOf bump.body)) = some (sumCode, bumpCode) := by decide +kernel
  obtain ⟨flat, hflat, hcodes⟩ := Option.bind_eq_some_iff.mp hcodes
  obtain ⟨entry, hentry, hcodes⟩ := Option.bind_eq_some_iff.mp hcodes
  obtain ⟨bump, hbump, hcodes⟩ := Option.map_eq_some_iff.mp hcodes
  exact ⟨flat, entry, bump, toOption_eq_some.mp hflat, hentry, hbump, congrArg Prod.fst hcodes,
    congrArg Prod.snd hcodes⟩

/-- The call in it overtakes the read of the variable. -/
theorem overtaken_sumCode : Overtaken 0 sumCode "demo.a" "demo.bump" :=
  ⟨1, 2, 3, _, _, _, by decide, by decide, rfl, rfl, rfl, rfl, by decide⟩

/-- Some statement of the entry of `bumpedSum` asks for the call to overtake the read. -/
theorem leftToRight_iff_bumpedSum : ∃ flat f, Program.ofModel bumpedSum = .ok flat ∧
    flat.find? "demo.main" = some f ∧ ∃ source, source.label = "demo.main" ∧
      Function.ofModel bumpedSum source = .ok f ∧ ∃ stmt ∈ source.statements,
        ("demo.a", "demo.bump") ∈ overtakenAt ⟨bumpedSum, source⟩ stmt := by
  obtain ⟨flat, f, _, hflat, hf, _, hcode, _⟩ := ofModel_bumpedSum
  obtain ⟨_, _, source, _, hlabel, hof, hovertaken, _⟩ := leftToRight_iff hflat hf
  refine ⟨flat, f, hflat, hf, source, hlabel, hof, (hovertaken "demo.a" "demo.bump").mp ?_⟩
  rw [hcode]
  exact overtaken_sumCode

/-- **The first operand of a sum can be read behind the call that is the second.**  The entry of
`bumpedSum` adds what `demo.bump` gives to the variable `demo.a`, which `demo.bump` assigns to; and
in its assembly the variable, in register 2, is fetched when the call has returned. -/
theorem operand_overtaken_bumpedSum : ∃ flat f, Program.ofModel bumpedSum = .ok flat ∧
    flat.find? "demo.main" = some f ∧ ¬LeftToRight flat f ∧
    [.command (.call "demo.bump"), .command (.move 4 (.cell 6)), .command (.move 3 (.cell 2)),
      .command (.word .add 3 (.cell 4))] <:+: (compile bumpedSum).lines := by
  obtain ⟨flat, f, bump, hflat, hf, hbump, hcode, hcode'⟩ := ofModel_bumpedSum
  have halters : Alters flat "demo.bump" "demo.a" := by
    refine ⟨"demo.bump", bump, .refl, hbump, 3, 2, 1, some .add, .word, .register (.globalVar "demo.a"),
      ?_, ?_, rfl⟩
    · rw [hcode']
      rfl
    · rw [hcode']
      rfl
  refine ⟨flat, f, hflat, hf, fun hall => hall "demo.a" "demo.bump" ?_ halters, by decide +kernel⟩
  rw [hcode]
  exact overtaken_sumCode

end Flat

end Stackless
