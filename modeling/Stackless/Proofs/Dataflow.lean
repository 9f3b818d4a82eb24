import Stackless.Proofs.FlatShape
import Stackless.Proofs.Meaning

/-!
# Flat code computes expressions

The instructions of an expression, performed one after the other, each with the values of
those that it names, leave the value of the expression at its index and the trace of its
evaluation (`flow_evaluate`).  So do the instructions of a target (`flow_evaluatePlace`).
-/

namespace Stackless

open Flat (Context Evaluation Instruction Var evaluate evaluatePlace)
open Model (Expr MathOp)

/-- Whether an expression has no calls. -/
def Model.Expr.callFree : Expr → Bool
  | .int _ | .bool _ | .var _ => true
  | .index _ offset => offset.callFree
  | .unary _ operand => operand.callFree
  | .binary _ lhs rhs | .compare _ lhs rhs => lhs.callFree && rhs.callFree
  | .call _ _ => false

namespace Scene

variable (scene : Scene)

/-- What an instruction gives, from the values before it, and the trace that it leaves. -/
def give (values : Nat → Datum) (trace : List Event) : Instruction → Datum × List Event
  | .register var => (scene.machine.datum (.register, scene.address var), trace)
  | .bit var => (scene.machine.datum (.bit, scene.address var), trace)
  | .ram var | .rom var => (.word (BitVec.ofNat 18 (scene.address var)), trace)
  | .portIn var => scene.input (scene.address var) trace
  | .int value => (.word (BitVec.ofInt 18 value.toInt), trace)
  | .bool value => (.bit value, trace)
  | .compare op .word lhs rhs =>
    (.bit (scene.processor.orders (values lhs).toWord (values rhs).toWord op), trace)
  | .compare op .bit lhs rhs => (.bit (orderBits (values lhs).toBit (values rhs).toBit op), trace)
  | .math op .word lhs none => (.word (Processor.unary op (values lhs).toWord), trace)
  | .math op .word lhs (some rhs) =>
    (.word (scene.processor.binary op (values lhs).toWord (values rhs).toWord), trace)
  | .math _ .bit lhs none => (.bit (!(values lhs).toBit), trace)
  | .math op .bit lhs (some rhs) => (.bit (logic op (values lhs).toBit (values rhs).toBit), trace)
  | .element space array index =>
    (.word (scene.processor.memory scene.machine space
      ((values array).toWord + (values index).toWord)), trace)
  | .address array index => (.word ((values array).toWord + (values index).toWord), trace)
  | _ => (default, trace)

/-- What code leaves: the values of its instructions by their indices, and the trace. -/
def flow : Nat → List Instruction → (Nat → Datum) × List Event → (Nat → Datum) × List Event
  | _, [], before => before
  | index, x :: rest, before =>
    let value := scene.give before.1 before.2 x
    flow (index + 1) rest (Function.update before.1 index value.1, value.2)

/-- The location that an instruction at an index names. A word of the RAM is named by the address
that was computed there. -/
def place (values : Nat → Datum) (index : Nat) : Instruction → Location
  | .register var => .cell (.register, scene.address var)
  | .bit var => .cell (.bit, scene.address var)
  | .portOut var => .port (scene.address var)
  | _ => .memory (values index).toWord


/-- Code with more code behind it. -/
theorem flow_append {start : Nat} {xs ys : List Instruction} {before : (Nat → Datum) × List Event} :
    scene.flow start (xs ++ ys) before =
      scene.flow (start + xs.length) ys (scene.flow start xs before) := by
  induction xs generalizing start before with
  | nil => rfl
  | cons x rest ih =>
      rw [List.cons_append, flow, ih, flow, List.length_cons, Nat.add_right_comm, Nat.add_assoc]

/-- The values before code stay. -/
theorem flow_below {start index : Nat} {code : List Instruction}
    {before : (Nat → Datum) × List Event} (h : index < start) :
    (scene.flow start code before).1 index = before.1 index := by
  induction code generalizing start before with
  | nil => rfl
  | cons x rest ih =>
      rw [flow, ih (by omega)]
      exact Function.update_of_ne (by omega) ..

/-- A last instruction behind code. -/
theorem flow_snoc {start : Nat} {code : List Instruction} {x : Instruction}
    {before : (Nat → Datum) × List Event} :
    scene.flow start (code ++ [x]) before =
      (Function.update (scene.flow start code before).1 (start + code.length)
        (scene.give (scene.flow start code before).1 (scene.flow start code before).2 x).1,
      (scene.give (scene.flow start code before).1 (scene.flow start code before).2 x).2) := by
  rw [flow_append]
  rfl

/-- The value of an evaluation is what its last instruction gives. -/
theorem flow_code (start : Nat) (e : Evaluation) (before : (Nat → Datum) × List Event) :
    (scene.flow start e.code before).1 (e.ref start) =
        (scene.give (scene.flow start e.before before).1 (scene.flow start e.before before).2
          e.result).1 ∧
      (scene.flow start e.code before).2 =
        (scene.give (scene.flow start e.before before).1 (scene.flow start e.before before).2
          e.result).2 := by
  rw [Evaluation.code, flow_snoc]
  exact ⟨Function.update_self .., rfl⟩

/-- What two evaluations leave, one after the other. -/
theorem flow_pair (start : Nat) (left right : Evaluation) (before : (Nat → Datum) × List Event) :
    scene.flow start (left.code ++ right.code) before =
        scene.flow (left.next start) right.code (scene.flow start left.code before) ∧
      (scene.flow start (left.code ++ right.code) before).1 (left.ref start) =
        (scene.flow start left.code before).1 (left.ref start) := by
  have happend : scene.flow start (left.code ++ right.code) before =
      scene.flow (left.next start) right.code (scene.flow start left.code before) := by
    rw [flow_append, ← left.next_eq]
  refine ⟨happend, ?_⟩
  rw [happend]
  exact scene.flow_below (Nat.lt_succ_self _)

/-- The read of a variable gives its value. -/
theorem give_readVar (var : Var) (symbol : Model.Symbol) (values : Nat → Datum)
    (trace : List Event) :
    (Flat.readVar var symbol).before = [] ∧
      scene.give values trace (Flat.readVar var symbol).result = scene.read var symbol trace ∧
      (scene.read var symbol trace).1.width = (Flat.readVar var symbol).width := by
  unfold Flat.readVar Scene.read
  cases symbol.storage with
  | rom =>
      cases symbol.isArray with
      | true => exact ⟨rfl, rfl, rfl⟩
      | false =>
          simp only [Bool.false_eq_true, if_false]
          unfold Flat.literalOf Model.Symbol.literal
          cases symbol.type with
          | bool => exact ⟨rfl, rfl, rfl⟩
          | _ => exact ⟨rfl, rfl, rfl⟩
  | _ => exact ⟨rfl, rfl, rfl⟩

/-- The base of an array gives the address of its first element. -/
theorem give_base {var : Var} {symbol : Model.Symbol} {array : Instruction} {space : Flat.Space}
    (h : Flat.arrayBase? var symbol = some (array, space)) (values : Nat → Datum)
    (trace : List Event) :
    (scene.give values trace array).1.toWord = scene.base var symbol ∧
      (scene.give values trace array).2 = trace ∧ symbol.space = space := by
  unfold Flat.arrayBase? at h
  unfold Scene.base Model.Symbol.space
  split at h
  all_goals cases h
  · rename_i hstorage
    simp only [hstorage]
    exact ⟨rfl, rfl, trivial⟩
  · rename_i hstorage
    simp only [hstorage]
    exact ⟨rfl, rfl, trivial⟩
  · rename_i hstorage htype
    simp only [hstorage, htype]
    exact ⟨rfl, rfl, trivial⟩
  · rename_i hstorage htype
    simp only [hstorage, htype]
    exact ⟨rfl, rfl, trivial⟩

/-- An array that can be written can be read. -/
theorem arrayBase?_of_writable {var : Var} {symbol : Model.Symbol} {array : Instruction}
    (h : Flat.writableBase? var symbol = some array) :
    Flat.arrayBase? var symbol = some (array, .ram) := by
  unfold Flat.writableBase? at h
  unfold Flat.arrayBase?
  split at h
  all_goals cases h
  · rename_i hstorage
    simp only [hstorage]
  · rename_i hstorage htype
    simp only [hstorage, htype]

variable {ctx : Context}

/-- What the code of an array and an index leaves, if that of the index leaves its value. -/
theorem flow_indexed {var : Var} {symbol : Model.Symbol} {array : Instruction}
    {space : Flat.Space} {start : Nat} {index : Expr} {value : Evaluation}
    (harray : Flat.arrayBase? var symbol = some (array, space)) (values : Nat → Datum)
    (trace : List Event)
    (hindex : ∀ values trace,
      (scene.flow (start + 1) value.code (values, trace)).1 (value.ref (start + 1)) =
        (scene.eval ctx index trace).1 ∧
      (scene.flow (start + 1) value.code (values, trace)).2 = (scene.eval ctx index trace).2) :
    let after := scene.flow start (array :: value.code) (values, trace)
    (after.1 start).toWord + (after.1 (value.ref (start + 1))).toWord =
        scene.base var symbol + (scene.eval ctx index trace).1.toWord ∧
      after.2 = (scene.eval ctx index trace).2 := by
  obtain ⟨hbase, htrace, _⟩ := scene.give_base harray values trace
  intro after
  have hafter : after = scene.flow (start + 1) value.code
      (Function.update values start (scene.give values trace array).1, trace) := by
    show scene.flow (start + 1) value.code (_, (scene.give values trace array).2) = _
    rw [htrace]
  obtain ⟨hvalue, hrest⟩ := hindex (Function.update values start (scene.give values trace array).1) trace
  rw [hafter, hvalue, hrest, scene.flow_below (Nat.lt_succ_self start)]
  refine ⟨?_, rfl⟩
  show (Function.update values start _ start).toWord + _ = _
  rw [Function.update_self, hbase]

/-- **The code of an expression leaves its value and its trace.**  Whatever values and trace it
starts from, its last instruction gives the value of the expression, and the ports that were read on
the way are those that the expression reads, in the same order. -/
theorem flow_evaluate :
    ∀ (e : Expr) {start : Nat} {out : Evaluation}, e.callFree = true →
      evaluate ctx start e = .ok out → ∀ (values : Nat → Datum) (trace : List Event),
      (scene.flow start out.code (values, trace)).1 (out.ref start) = (scene.eval ctx e trace).1 ∧
      (scene.flow start out.code (values, trace)).2 = (scene.eval ctx e trace).2 ∧
      (scene.eval ctx e trace).1.width = out.width
  | .int value, start, out, _, h, values, trace => by
    cases h
    exact ⟨Function.update_self .., rfl, rfl⟩
  | .bool value, start, out, _, h, values, trace => by
    cases h
    exact ⟨Function.update_self .., rfl, rfl⟩
  | .var label, start, out, _, h, values, trace => by
    obtain ⟨⟨var, symbol⟩, hsymbol, h⟩ := bind_eq_ok.mp h
    cases h
    obtain ⟨hbefore, hgive, hwidth⟩ := scene.give_readVar var symbol values trace
    obtain ⟨hvalue, htrace⟩ := scene.flow_code start (Flat.readVar var symbol) (values, trace)
    rw [hvalue, htrace, hbefore]
    simp only [flow, hgive, eval, hsymbol]
    exact ⟨trivial, trivial, hwidth⟩
  | .index label index, start, out, hfree, h, values, trace => by
    obtain ⟨⟨var, symbol⟩, hsymbol, h⟩ := bind_eq_ok.mp h
    obtain ⟨⟨array, space⟩, harray, h⟩ := bind_eq_ok.mp h
    obtain ⟨value, hvalue, h⟩ := bind_eq_ok.mp h
    cases h
    have harray := Flat.orError_eq_ok.mp harray
    obtain ⟨hsum, htrace⟩ := scene.flow_indexed harray values trace fun values trace =>
      (flow_evaluate index hfree hvalue values trace).imp_right And.left
    obtain ⟨hresult, hafter⟩ := scene.flow_code start
      ⟨array :: value.code, .element space start (value.ref (start + 1)), .word⟩ (values, trace)
    rw [hresult, hafter]
    simp only [give, eval, hsymbol]
    rw [hsum, htrace, (scene.give_base harray values trace).2.2]
    exact ⟨rfl, rfl, rfl⟩
  | .unary op operand, start, out, hfree, h, values, trace => by
    obtain ⟨value, hvalue, h⟩ := bind_eq_ok.mp h
    cases h
    obtain ⟨hdatum, htrace, _⟩ := flow_evaluate operand hfree hvalue values trace
    obtain ⟨hresult, hafter⟩ := scene.flow_code start
      ⟨value.code, .math op (Flat.mathWidth op) (value.ref start) none, Flat.mathWidth op⟩ (values, trace)
    rw [hresult, hafter, eval, ← hdatum, ← htrace]
    unfold Flat.mathWidth
    cases op.isLogical with
    | true => exact ⟨rfl, rfl, rfl⟩
    | false => exact ⟨rfl, rfl, rfl⟩
  | .binary op lhs rhs, start, out, hfree, h, values, trace => by
    obtain ⟨left, hleft, h⟩ := bind_eq_ok.mp h
    obtain ⟨right, hright, h⟩ := bind_eq_ok.mp h
    cases h
    obtain ⟨hfreeLeft, hfreeRight⟩ := Bool.and_eq_true_iff.mp hfree
    obtain ⟨hdatum, htrace, _⟩ := flow_evaluate lhs hfreeLeft hleft values trace
    obtain ⟨hdatum', htrace', _⟩ := flow_evaluate rhs hfreeRight hright
      (scene.flow start left.code (values, trace)).1 (scene.flow start left.code (values, trace)).2
    obtain ⟨hpair, hkept⟩ := scene.flow_pair start left right (values, trace)
    obtain ⟨hresult, hafter⟩ := scene.flow_code start
      ⟨left.code ++ right.code, .math op (Flat.mathWidth op) (left.ref start)
        (some (right.ref (left.next start))), Flat.mathWidth op⟩ (values, trace)
    rw [hresult, hafter, eval, ← hdatum, ← htrace, ← hdatum', ← htrace', ← hkept, ← hpair]
    unfold Flat.mathWidth
    cases op.isLogical with
    | true => exact ⟨rfl, rfl, rfl⟩
    | false => exact ⟨rfl, rfl, rfl⟩
  | .compare op lhs rhs, start, out, hfree, h, values, trace => by
    obtain ⟨left, hleft, h⟩ := bind_eq_ok.mp h
    obtain ⟨right, hright, h⟩ := bind_eq_ok.mp h
    cases h
    obtain ⟨hfreeLeft, hfreeRight⟩ := Bool.and_eq_true_iff.mp hfree
    obtain ⟨hdatum, htrace, hwidth⟩ := flow_evaluate lhs hfreeLeft hleft values trace
    obtain ⟨hdatum', htrace', _⟩ := flow_evaluate rhs hfreeRight hright
      (scene.flow start left.code (values, trace)).1 (scene.flow start left.code (values, trace)).2
    obtain ⟨hpair, hkept⟩ := scene.flow_pair start left right (values, trace)
    obtain ⟨hresult, hafter⟩ := scene.flow_code start
      ⟨left.code ++ right.code, .compare op left.width (left.ref start)
        (right.ref (left.next start)), .bit⟩ (values, trace)
    rw [hresult, hafter, eval, ← hwidth, ← hdatum, ← htrace, ← hdatum', ← htrace', ← hkept, ← hpair]
    cases hvalue : (scene.flow start (left.code ++ right.code) (values, trace)).1 (left.ref start) with
    | word value =>
        simp only [Datum.width, give, hvalue]
        exact ⟨rfl, trivial, trivial⟩
    | bit value =>
        simp only [Datum.width, give, hvalue]
        exact ⟨rfl, trivial, trivial⟩
  | .call function arguments, start, out, hfree, h, values, trace => by
    cases hfree

/-- **The code of a target leaves its location and the trace of finding it**, which reads ports only
where the target has an index that does. -/
theorem flow_evaluatePlace {e : Expr} {start : Nat} {out : Evaluation} (hfree : e.callFree = true)
    (h : evaluatePlace ctx start e = .ok out) (values : Nat → Datum) (trace : List Event) :
    scene.place (scene.flow start out.code (values, trace)).1 (out.ref start) out.result =
        (scene.locate ctx e trace).1 ∧
      (scene.flow start out.code (values, trace)).2 = (scene.locate ctx e trace).2 := by
  unfold evaluatePlace at h
  split at h
  · obtain ⟨⟨var, symbol⟩, hsymbol, h⟩ := bind_eq_ok.mp h
    replace h := Flat.orError_eq_ok.mp h
    simp only [locate, hsymbol]
    unfold Flat.writeVar? at h
    cases hstorage : symbol.storage with
    | register | bit | port =>
        rw [hstorage] at h
        cases h
        exact ⟨rfl, rfl⟩
    | ram | rom =>
        rw [hstorage] at h
        cases h
  · rename_i label index
    obtain ⟨⟨var, symbol⟩, hsymbol, h⟩ := bind_eq_ok.mp h
    obtain ⟨array, harray, h⟩ := bind_eq_ok.mp h
    obtain ⟨value, hvalue, h⟩ := bind_eq_ok.mp h
    cases h
    have harray := arrayBase?_of_writable (Flat.orError_eq_ok.mp harray)
    obtain ⟨hsum, htrace⟩ := scene.flow_indexed harray values trace fun values trace =>
      (scene.flow_evaluate index hfree hvalue values trace).imp_right And.left
    obtain ⟨hresult, hafter⟩ := scene.flow_code start
      ⟨array :: value.code, .address start (value.ref (start + 1)), .word⟩ (values, trace)
    simp only [place, locate, hsymbol, hresult, hafter, give, Datum.toWord_word]
    rw [hsum, htrace]
    exact ⟨rfl, rfl⟩
  · cases h

end Scene

end Stackless
