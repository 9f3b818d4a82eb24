import Mathlib.Data.List.Nodup
import Stackless.Proofs.Pieces

/-!
# Every value is used once

Flat code is made from trees, so every value in it has at most one user, and no user
names a value twice.  Put in one: the list of all indices that some code names
(`named`) has no repetitions (`Pieces.nodup_named`).

The code of an expression names indices of its own, and not the last one, which is the
value of the expression itself; so the code of an operation can name the values of its
operands without repeating anything.
-/

namespace Stackless.Flat

open Model (Expr Stmt)

/-- All indices that some code names. -/
def named (code : List Instruction) : List Nat :=
  code.flatMap Instruction.operands

@[simp]
theorem named_append (xs ys : List Instruction) : named (xs ++ ys) = named xs ++ named ys :=
  List.flatMap_append

@[simp]
theorem named_singleton (instr : Instruction) : named [instr] = instr.operands := by
  simp [named]

/-- What shaped code names stands in it, before the last instruction. -/
theorem Shaped.named_range {start : Nat} {code : List Instruction} (h : Shaped start code) {r : Nat}
    (hr : r ∈ named code) : start ≤ r ∧ r + 1 < start + code.length := by
  obtain ⟨x, hx, hr⟩ := List.mem_flatMap.mp hr
  obtain ⟨i, hi⟩ := List.mem_iff_getElem?.mp hx
  have hrange := h.operand i x hi r hr
  have hlt := (List.getElem?_eq_some_iff.mp hi).1
  omega

/-- A single instruction of the shape of flat code names nothing. -/
theorem Shaped.named_singleton {start : Nat} {instr : Instruction} (h : Shaped start [instr]) :
    named [instr] = [] := by
  apply List.eq_nil_iff_forall_not_mem.mpr
  intro r hr
  have hrange := h.named_range hr
  rw [List.length_singleton] at hrange
  omega

/-- Two rows of indices, the first below a bound and the second not. -/
theorem nodup_append_of_lt {xs ys : List Nat} (bound : Nat) (hx : xs.Nodup) (hy : ys.Nodup)
    (hlt : ∀ r ∈ xs, r < bound) (hge : ∀ r ∈ ys, bound ≤ r) : (xs ++ ys).Nodup := by
  refine List.nodup_append.mpr ⟨hx, hy, fun r hr s hs heq => ?_⟩
  have := hlt r hr
  have := hge s hs
  omega

section Expressions

variable {ctx : Context}

/-- A variable is read by one instruction. -/
theorem readVar_single (var : Var) (symbol : Model.Symbol) : (readVar var symbol).before = [] := by
  unfold readVar
  split
  all_goals try rfl
  split
  · rfl
  · unfold literalOf
    split
    · rfl
    · rfl

theorem writeVar?_single {var : Var} {symbol : Model.Symbol} {place : Evaluation}
    (h : writeVar? var symbol = some place) : place.before = [] := by
  unfold writeVar? at h
  split at h
  all_goals cases h
  all_goals rfl

theorem nodup_named_single {start : Nat} {e : Evaluation} (hsingle : e.before = [])
    (h : Computes start e.code) : (named e.code).Nodup := by
  have hcode : e.code = [e.result] := by rw [Evaluation.code, hsingle, List.nil_append]
  rw [hcode] at h ⊢
  rw [h.shaped.named_singleton]
  exact List.nodup_nil

/-- A user behind the two values that it names. -/
theorem nodup_named_pair {start : Nat} (left : Evaluation) {right : Evaluation} {user : Instruction}
    (hleft : Computes start left.code) (hright : Computes (start + left.code.length) right.code)
    (huser : user.operands.Perm [left.ref start, right.ref (start + left.code.length)])
    (hnodup : (named left.code).Nodup) (hnodup' : (named right.code).Nodup) :
    (named (left.code ++ right.code ++ [user])).Nodup := by
  have hrange := left.ref_range start
  have hrange' := right.ref_range (start + left.code.length)
  rw [named_append, named_append, named_singleton]
  refine List.nodup_append.mpr ⟨nodup_append_of_lt (start + left.code.length) hnodup hnodup' ?_ ?_,
    ?_, ?_⟩
  · intro r hr
    have := hleft.shaped.named_range hr
    omega
  · intro r hr
    exact (hright.shaped.named_range hr).1
  · rw [huser.nodup_iff]
    simp only [List.nodup_cons, List.mem_singleton, List.not_mem_nil, not_false_iff, List.nodup_nil,
      and_true]
    omega
  · intro r hr s hs heq
    rw [huser.mem_iff] at hs
    simp only [List.mem_cons, List.not_mem_nil, or_false] at hs
    rcases List.mem_append.mp hr with hr | hr
    · have := hleft.shaped.named_range hr
      omega
    · have := hright.shaped.named_range hr
      omega

/-- What passes parameters names the values that it passes. -/
theorem named_passing (label : String) (callee : Model.Function) (refs : List Nat) :
    named (passing label callee refs) = refs.take callee.parameters.length := by
  unfold named passing
  rw [List.flatMap_map]
  generalize callee.parameters = parameters
  induction parameters generalizing refs with
  | nil => simp
  | cons parameter rest ih =>
      cases refs with
      | nil => rfl
      | cons r refs =>
          rw [List.zip_cons_cons, List.flatMap_cons, ih]
          rfl

/-- A call behind its arguments. -/
theorem nodup_named_call {code : List Instruction} {refs : List Nat} {label : String}
    {callee : Model.Function} (h : (named code ++ refs).Nodup) (result : Option Width) :
    (named (code ++ passing label callee refs ++ [.call label result])).Nodup := by
  rw [named_append, named_append, named_singleton, named_passing]
  refine List.Nodup.sublist ?_ h
  simp only [Instruction.operands, List.append_nil]
  exact (List.Sublist.refl _).append (List.take_sublist _ _)

mutual

/-- **The code of an expression names nothing twice.** -/
theorem nodup_named_evaluate :
    ∀ (e : Expr) {start : Nat} {out : Evaluation}, evaluate ctx start e = .ok out →
      (named out.code).Nodup
  | .int value, start, out, h => by
    cases h
    exact List.nodup_nil
  | .bool value, start, out, h => by
    cases h
    exact List.nodup_nil
  | .var label, start, out, h => by
    obtain ⟨⟨var, symbol⟩, _, h⟩ := bind_eq_ok.mp h
    cases h
    exact nodup_named_single (readVar_single var symbol) (readVar_code var symbol start)
  | .index label index, start, out, h => by
    obtain ⟨⟨var, symbol⟩, _, h⟩ := bind_eq_ok.mp h
    obtain ⟨⟨array, space⟩, harray, h⟩ := bind_eq_ok.mp h
    obtain ⟨value, hvalue, h⟩ := bind_eq_ok.mp h
    cases h
    have hbase := arrayBase?_code (orError_eq_ok.mp harray) start
    exact nodup_named_pair (.single array .word) hbase (evaluate_computes index hvalue) (.refl _)
      (nodup_named_single rfl hbase) (nodup_named_evaluate index hvalue)
  | .unary op operand, start, out, h => by
    obtain ⟨value, hvalue, h⟩ := bind_eq_ok.mp h
    cases h
    have hrange := value.ref_range start
    show (named (value.code ++ [_])).Nodup
    rw [named_append, named_singleton]
    refine nodup_append_of_lt (value.ref start) (nodup_named_evaluate operand hvalue)
      (List.nodup_singleton _) ?_ ?_
    · intro r hr
      have := (evaluate_computes operand hvalue).shaped.named_range hr
      omega
    · intro r hr
      exact Nat.le_of_eq (List.mem_singleton.mp hr).symm
  | .binary op lhs rhs, start, out, h => by
    obtain ⟨left, hleft, h⟩ := bind_eq_ok.mp h
    obtain ⟨right, hright, h⟩ := bind_eq_ok.mp h
    cases h
    rw [left.next_eq] at hright ⊢
    exact nodup_named_pair left (evaluate_computes lhs hleft) (evaluate_computes rhs hright)
      (.refl _) (nodup_named_evaluate lhs hleft) (nodup_named_evaluate rhs hright)
  | .compare op lhs rhs, start, out, h => by
    obtain ⟨left, hleft, h⟩ := bind_eq_ok.mp h
    obtain ⟨right, hright, h⟩ := bind_eq_ok.mp h
    cases h
    rw [left.next_eq] at hright ⊢
    exact nodup_named_pair left (evaluate_computes lhs hleft) (evaluate_computes rhs hright)
      (.refl _) (nodup_named_evaluate lhs hleft) (nodup_named_evaluate rhs hright)
  | .call function arguments, start, out, h => by
    obtain ⟨callee, _, h⟩ := bind_eq_ok.mp h
    obtain ⟨⟨code, refs⟩, hcode, h⟩ := bind_eq_ok.mp h
    have hnodup := nodup_named_evaluateAll arguments hcode
    cases hreturns : callee.returns with
    | none =>
        rw [hreturns] at h
        cases h
    | some type =>
        rw [hreturns] at h
        cases h
        exact nodup_named_call hnodup _

/-- The code of expressions one after another names nothing twice, and none of their
own values. -/
theorem nodup_named_evaluateAll :
    ∀ (es : List Expr) {start : Nat} {code : List Instruction} {refs : List Nat},
      evaluateAll ctx start es = .ok (code, refs) → (named code ++ refs).Nodup
  | [], start, code, refs, h => by
    cases h
    exact List.nodup_nil
  | e :: rest, start, code, refs, h => by
    obtain ⟨value, hvalue, h⟩ := bind_eq_ok.mp h
    obtain ⟨⟨code', refs'⟩, hrest, h⟩ := bind_eq_ok.mp h
    cases h
    rw [value.next_eq] at hrest
    have hrange := value.ref_range start
    have hfirst := nodup_named_evaluate e hvalue
    have hothers := nodup_named_evaluateAll rest hrest
    obtain ⟨hcode, hrefs⟩ := evaluateAll_computes rest hrest
    have hall : (named value.code ++ [value.ref start] ++ (named code' ++ refs')).Nodup := by
      refine nodup_append_of_lt (start + value.code.length) (nodup_append_of_lt
        (value.ref start) hfirst (List.nodup_singleton _) ?_ ?_) hothers ?_ ?_
      · intro r hr
        have := (evaluate_computes e hvalue).shaped.named_range hr
        omega
      · intro r hr
        exact Nat.le_of_eq (List.mem_singleton.mp hr).symm
      · intro r hr
        rcases List.mem_append.mp hr with hr | hr
        · have := (evaluate_computes e hvalue).shaped.named_range hr
          omega
        · rw [List.mem_singleton.mp hr]
          omega
      · intro r hr
        rcases List.mem_append.mp hr with hr | hr
        · exact (hcode.shaped.named_range hr).1
        · exact (hrefs r hr).1
    refine hall.perm ?_
    rw [named_append]
    simp only [List.append_assoc, List.perm_append_left_iff, List.singleton_append]
    exact List.perm_middle.symm

end

/-- The code of a place names nothing twice. -/
theorem nodup_named_evaluatePlace {e : Expr} {start : Nat} {out : Evaluation}
    (h : evaluatePlace ctx start e = .ok out) : (named out.code).Nodup := by
  have hcomputes := evaluatePlace_computes h
  unfold evaluatePlace at h
  split at h
  · obtain ⟨⟨var, symbol⟩, _, h⟩ := bind_eq_ok.mp h
    exact nodup_named_single (writeVar?_single (orError_eq_ok.mp h)) hcomputes
  · obtain ⟨⟨var, symbol⟩, _, h⟩ := bind_eq_ok.mp h
    obtain ⟨array, harray, h⟩ := bind_eq_ok.mp h
    obtain ⟨value, hvalue, h⟩ := bind_eq_ok.mp h
    cases h
    have hbase := arrayBase?_code (arrayBase?_of_writableBase? (orError_eq_ok.mp harray)) start
    exact nodup_named_pair (.single array .word) hbase (evaluate_computes _ hvalue) (.refl _)
      (nodup_named_single rfl hbase) (nodup_named_evaluate _ hvalue)
  · cases h

/-- A value that is put to use at once. -/
theorem nodup_named_use {e : Expr} {start : Nat} {value : Evaluation} {user : Instruction}
    (hvalue : evaluate ctx start e = .ok value) (huser : user.operands = [value.ref start]) :
    (named (value.code ++ [user])).Nodup := by
  have hrange := value.ref_range start
  rw [named_append, named_singleton, huser]
  refine nodup_append_of_lt (value.ref start) (nodup_named_evaluate e hvalue)
    (List.nodup_singleton _) ?_ ?_
  · intro r hr
    have := (evaluate_computes e hvalue).shaped.named_range hr
    omega
  · intro r hr
    exact Nat.le_of_eq (List.mem_singleton.mp hr).symm

/-- **The code of a simple statement names nothing twice.** -/
theorem nodup_named_simpleCode {stmt : Stmt} {start : Nat} {code : List Instruction}
    (h : simpleCode ctx start stmt = .ok code) : (named code).Nodup := by
  unfold simpleCode at h
  split at h
  · obtain ⟨value, hvalue, h⟩ := bind_eq_ok.mp h
    obtain ⟨place, hplace, h⟩ := bind_eq_ok.mp h
    cases h
    rw [value.next_eq] at hplace ⊢
    exact nodup_named_pair value (evaluate_computes _ hvalue) (evaluatePlace_computes hplace)
      (.swap _ _ _) (nodup_named_evaluate _ hvalue) (nodup_named_evaluatePlace hplace)
  · obtain ⟨callee, _, h⟩ := bind_eq_ok.mp h
    obtain ⟨⟨code, refs⟩, hcode, h⟩ := bind_eq_ok.mp h
    cases h
    exact nodup_named_call (nodup_named_evaluateAll _ hcode) none
  · cases h
    exact List.nodup_nil
  · obtain ⟨value, hvalue, h⟩ := bind_eq_ok.mp h
    cases h
    exact nodup_named_use hvalue rfl
  · obtain ⟨value, hvalue, h⟩ := bind_eq_ok.mp h
    cases h
    exact nodup_named_use hvalue rfl
  all_goals cases h
  all_goals exact List.nodup_nil

end Expressions

/-- A piece names nothing twice. -/
theorem Piece.nodup_named {ctx : Context} {stmts : List Stmt} {start : Nat}
    {code : List Instruction} (h : Piece ctx stmts start code) : (named code).Nodup := by
  cases h with
  | marker name => exact List.nodup_nil
  | jump target => exact List.nodup_nil
  | test expected target _ hvalue => exact nodup_named_use hvalue rfl
  | simple _ _ hcode => exact nodup_named_simpleCode hcode
  | ending => exact List.nodup_nil

/-- A row of pieces has the shape of flat code, and names nothing twice: what a piece names lies in
the piece, so that two pieces have no index in common. -/
theorem Pieces.nodup_named {ctx : Context} {stmts : List Stmt} {start : Nat}
    {code : List Instruction} (h : Pieces ctx stmts start code) :
    Shaped start code ∧ (named code).Nodup := by
  induction h with
  | nil => exact ⟨.nil, List.nodup_nil⟩
  | cons hpiece _ ih =>
      refine ⟨hpiece.shaped.append ih.1, ?_⟩
      rw [named_append]
      refine nodup_append_of_lt _ hpiece.nodup_named ih.2 ?_ fun r hr => (ih.1.named_range hr).1
      intro r hr
      have := hpiece.shaped.named_range hr
      omega

/-- **No value is used twice.** -/
theorem eq_of_mem_operands {code : List Instruction} (h : (named code).Nodup) {i j r : Nat}
    {x y : Instruction} (hx : code[i]? = some x) (hy : code[j]? = some y) (hrx : r ∈ x.operands)
    (hry : r ∈ y.operands) : i = j := by
  obtain ⟨_, hapart⟩ := List.nodup_flatMap.mp h
  obtain ⟨hi, rfl⟩ := List.getElem?_eq_some_iff.mp hx
  obtain ⟨hj, rfl⟩ := List.getElem?_eq_some_iff.mp hy
  rw [List.pairwise_iff_getElem] at hapart
  rcases Nat.lt_trichotomy i j with hlt | heq | hlt
  · exact (hapart i j hi hj hlt hrx hry).elim
  · exact heq
  · exact (hapart j i hj hi hlt hry hrx).elim

end Stackless.Flat
