import Stackless.Flat.Flatten
import Stackless.Proofs.Outcome

/-!
# The shape of flat code

A value is computed right where it is needed, so flat code has a shape that the
later phases rely on.

* An operand stands before its user, and between the two there are only values
  and the parameters and calls that values need (`Instruction.isInner`).
* An assignment computes its value first and its place second, and nothing of
  the place looks back at the value or before it.
* A parameter is passed right before the call that it belongs to.

`Shaped` says all this of a piece of code that starts at a given index.  Pieces
are put together with `Shaped.append`; a user is put behind its operands with
`Shaped.extend`.  The code of an expression moreover only computes values
(`Computes`), and that of a simple statement is shaped (`simpleCode_shaped`).
-/

namespace Stackless.Flat

open Model (Expr Stmt)

/-- Whether an instruction may stand between a value and its user: it computes a value, names a
place, or passes a parameter, and control always goes on to the next one. -/
def Instruction.isInner : Instruction → Bool
  | .compare _ _ _ _ | .math _ _ _ _ | .call _ (some _) | .parameter _ _ _ => true
  | .register _ | .bit _ | .ram _ | .rom _ | .portIn _ | .portOut _ => true
  | .element _ _ _ | .address _ _ | .bool _ | .int _ => true
  | _ => false

/-- Whether an instruction passes a parameter to a function or calls it. -/
def Instruction.serves (function : String) : Instruction → Bool
  | .parameter callee _ _ => callee = function
  | .call callee _ => callee = function
  | _ => false

/-- Whether an instruction is an assignment. -/
def Instruction.isAssign : Instruction → Bool
  | .assign _ _ _ _ => true
  | _ => false

/-- Whether an instruction passes a parameter. -/
def Instruction.isParameter : Instruction → Bool
  | .parameter _ _ _ => true
  | _ => false

/-- Code that starts at an index and has the shape of flat code. These are the properties that hold
of pieces on their own and pass to pieces put one behind the other. -/
structure Shaped (start : Nat) (code : List Instruction) : Prop where
  /-- Operands stand before their users. -/
  operand : ∀ i user, code[i]? = some user → ∀ r ∈ user.operands, start ≤ r ∧ r < start + i
  /-- Between an operand and its user only values are computed. -/
  inner : ∀ i user, code[i]? = some user → ∀ r ∈ user.operands, ∀ k between,
    r < start + k → k < i → code[k]? = some between → between.isInner = true
  /-- Nothing behind the value of an assignment looks back at it or before it. -/
  assign : ∀ i op width target value, code[i]? = some (.assign op width target value) →
    value < target ∧ ∀ k between, value < start + k → k < i → code[k]? = some between →
      ∀ r ∈ between.operands, value < r
  /-- A parameter is followed by the next one or by the call. -/
  pass : ∀ i function name value, code[i]? = some (.parameter function name value) →
    ∃ next, code[i + 1]? = some next ∧ next.serves function = true

namespace Shaped

variable {start : Nat} {xs ys : List Instruction}

theorem nil : Shaped start [] where
  operand := by simp
  inner := by simp
  assign := by simp
  pass := by simp

/-- An instruction without operands that passes no parameter has the shape. -/
theorem single {instr : Instruction} (h : instr.operands = [])
    (hpass : instr.isParameter = false) : Shaped start [instr] := by
  have hmem : ∀ {i : Nat} {user}, [instr][i]? = some user → user = instr := by
    intro i user hi
    exact List.mem_singleton.mp (List.mem_of_getElem? hi)
  refine ⟨?_, ?_, ?_, ?_⟩
  · intro i user hi r hr
    rw [hmem hi, h] at hr
    cases hr
  · intro i user hi r hr
    rw [hmem hi, h] at hr
    cases hr
  · intro i op width target value hi
    rw [← hmem hi] at h
    cases h
  · intro i function name value hi
    rw [← hmem hi] at hpass
    cases hpass

/-- **Pieces of flat code, one after the other, are flat code**: operands are named within a piece
only, so that none of its conditions looks across the border. -/
theorem append (hx : Shaped start xs) (hy : Shaped (start + xs.length) ys) :
    Shaped start (xs ++ ys) := by
  have hcases : ∀ {i user}, (xs ++ ys)[i]? = some user →
      (i < xs.length ∧ xs[i]? = some user) ∨
        (xs.length ≤ i ∧ ys[i - xs.length]? = some user) := by
    intro i user hi
    rw [List.getElem?_append] at hi
    split at hi
    · exact .inl ⟨‹_›, hi⟩
    · exact .inr ⟨by omega, hi⟩
  refine ⟨?_, ?_, ?_, ?_⟩
  · intro i user hi r hr
    rcases hcases hi with ⟨_, hi⟩ | ⟨hlen, hi⟩
    · exact hx.operand i user hi r hr
    · have := hy.operand _ user hi r hr
      omega
  · intro i user hi r hr k between hrk hki hk
    rcases hcases hi with ⟨hlen, hi⟩ | ⟨hlen, hi⟩
    · rcases hcases hk with ⟨_, hk⟩ | ⟨hlen', _⟩
      · exact hx.inner i user hi r hr k between hrk hki hk
      · omega
    · have hrange := hy.operand _ user hi r hr
      rcases hcases hk with ⟨hlen', _⟩ | ⟨hlen', hk⟩
      · omega
      · exact hy.inner _ user hi r hr _ between (by omega) (by omega) hk
  · intro i op width target value hi
    rcases hcases hi with ⟨hlen, hi⟩ | ⟨hlen, hi⟩
    · obtain ⟨hlt, hall⟩ := hx.assign i op width target value hi
      refine ⟨hlt, fun k between hvk hki hk => ?_⟩
      rcases hcases hk with ⟨_, hk⟩ | ⟨hlen', _⟩
      · exact hall k between hvk hki hk
      · omega
    · obtain ⟨hlt, hall⟩ := hy.assign _ op width target value hi
      have hrange := hy.operand _ _ hi value (by simp [Instruction.operands])
      refine ⟨hlt, fun k between hvk hki hk => ?_⟩
      rcases hcases hk with ⟨hlen', _⟩ | ⟨hlen', hk⟩
      · omega
      · exact hall _ between (by omega) (by omega) hk
  · intro i function name value hi
    rcases hcases hi with ⟨hlen, hi⟩ | ⟨hlen, hi⟩
    · obtain ⟨next, hnext, hserves⟩ := hx.pass i function name value hi
      have hlen' := (List.getElem?_eq_some_iff.mp hnext).1
      exact ⟨next, by rw [List.getElem?_append_left hlen']; exact hnext, hserves⟩
    · obtain ⟨next, hnext, hserves⟩ := hy.pass _ function name value hi
      refine ⟨next, ?_, hserves⟩
      rw [List.getElem?_append_right (by omega)]
      rw [show i + 1 - xs.length = i - xs.length + 1 by omega]
      exact hnext

/-- Users behind the code of their operands leave the shape of operands. -/
theorem operand_extend (hx : Shaped start xs)
    (hys : ∀ y ∈ ys, ∀ r ∈ y.operands, start ≤ r ∧ r < start + xs.length) (i : Nat)
    (user : Instruction) (hi : (xs ++ ys)[i]? = some user) (r : Nat) (hr : r ∈ user.operands) :
    start ≤ r ∧ r < start + i := by
  rw [List.getElem?_append] at hi
  split at hi
  · exact hx.operand i user hi r hr
  · have := hys user (List.mem_of_getElem? hi) r hr
    omega

/-- In front of the last of several users only values are computed. -/
theorem inner_extend (hinner : ∀ x ∈ xs, x.isInner = true)
    (hpre : ∀ i y, ys[i]? = some y → i + 1 < ys.length → y.isInner = true) {i k : Nat}
    {user between : Instruction} (hi : (xs ++ ys)[i]? = some user) (hki : k < i)
    (hk : (xs ++ ys)[k]? = some between) : between.isInner = true := by
  rw [List.getElem?_append] at hk
  split at hk
  · exact hinner between (List.mem_of_getElem? hk)
  · refine hpre _ between hk ?_
    have := (List.getElem?_eq_some_iff.mp hi).1
    rw [List.length_append] at this
    omega

/-- **Users behind the code of their operands.**  What is put behind code that only
computes values may use all of them. -/
theorem extend (hx : Shaped start xs) (hinner : ∀ x ∈ xs, x.isInner = true)
    (hys : ∀ y ∈ ys, ∀ r ∈ y.operands, start ≤ r ∧ r < start + xs.length)
    (hplain : ∀ y ∈ ys, y.isAssign = false)
    (hpre : ∀ i y, ys[i]? = some y → i + 1 < ys.length → y.isInner = true)
    (hpass : ∀ i function name value, ys[i]? = some (.parameter function name value) →
      ∃ next, ys[i + 1]? = some next ∧ next.serves function = true) :
    Shaped start (xs ++ ys) := by
  refine ⟨hx.operand_extend hys,
    fun _ _ hi _ _ _ _ _ hki hk => inner_extend hinner hpre hi hki hk, ?_, ?_⟩
  · intro i op width target value hi
    rw [List.getElem?_append] at hi
    split at hi
    · rename_i hlen
      obtain ⟨hlt, hall⟩ := hx.assign i op width target value hi
      refine ⟨hlt, fun k between hvk hki hk => hall k between hvk hki ?_⟩
      rw [List.getElem?_append_left (by omega)] at hk
      exact hk
    · cases hplain _ (List.mem_of_getElem? hi)
  · intro i function name value hi
    rw [List.getElem?_append] at hi
    split at hi
    · obtain ⟨next, hnext, hserves⟩ := hx.pass i function name value hi
      have hlen := (List.getElem?_eq_some_iff.mp hnext).1
      exact ⟨next, by rw [List.getElem?_append_left hlen]; exact hnext, hserves⟩
    · rename_i hlen
      obtain ⟨next, hnext, hserves⟩ := hpass _ function name value hi
      refine ⟨next, ?_, hserves⟩
      rw [List.getElem?_append_right (by omega)]
      rw [show i + 1 - xs.length = i - xs.length + 1 by omega]
      exact hnext

/-- A single user behind the code of its operands. -/
theorem snoc {user : Instruction} (hx : Shaped start xs) (hinner : ∀ x ∈ xs, x.isInner = true)
    (hrange : ∀ r ∈ user.operands, start ≤ r ∧ r < start + xs.length)
    (hassign : user.isAssign = false) (hparameter : user.isParameter = false) :
    Shaped start (xs ++ [user]) := by
  refine hx.extend hinner ?_ ?_ ?_ ?_
  · intro y hy
    rw [List.mem_singleton.mp hy]
    exact hrange
  · intro y hy
    rw [List.mem_singleton.mp hy]
    exact hassign
  · intro i y _ hlt
    simp at hlt
  · intro i function name value hi
    have heq := List.mem_singleton.mp (List.mem_of_getElem? hi)
    rw [← heq] at hparameter
    cases hparameter

/-- An assignment behind its value and its place. -/
theorem snoc_assign {op : Option Model.MathOp} {width : Width} {target value : Nat}
    (hx : Shaped start xs) (hy : Shaped (start + xs.length) ys)
    (hxinner : ∀ x ∈ xs, x.isInner = true) (hyinner : ∀ y ∈ ys, y.isInner = true)
    (hvalue : start ≤ value ∧ value + 1 = start + xs.length)
    (htarget : value < target ∧ target < start + xs.length + ys.length) :
    Shaped start (xs ++ ys ++ [.assign op width target value]) := by
  have hxy := hx.append hy
  have hinner : ∀ z ∈ xs ++ ys, z.isInner = true := fun z hz =>
    (List.mem_append.mp hz).elim (hxinner z) (hyinner z)
  have hrange : ∀ y ∈ [Instruction.assign op width target value], ∀ r ∈ y.operands,
      start ≤ r ∧ r < start + (xs ++ ys).length := by
    intro y hmem r hr
    rw [List.mem_singleton.mp hmem] at hr
    rw [List.length_append]
    rcases List.mem_cons.mp hr with rfl | hr
    · omega
    · rw [List.mem_singleton.mp hr]
      omega
  refine ⟨hxy.operand_extend hrange, ?_, ?_, ?_⟩
  · intro i user hi r hr k between _ hki hk
    exact inner_extend hinner (fun i y _ hlt => by simp at hlt) hi hki hk
  · intro i op' width' target' value' hi
    rw [List.getElem?_append] at hi
    split at hi
    · have hin := hinner _ (List.mem_of_getElem? hi)
      cases hin
    · rename_i hlen
      cases List.mem_singleton.mp (List.mem_of_getElem? hi)
      refine ⟨htarget.1, fun k between hvk hki hk r hr => ?_⟩
      have hlen' := (List.getElem?_eq_some_iff.mp hk).1
      rw [List.append_assoc, List.getElem?_append_right (by omega), List.getElem?_append] at hk
      split at hk
      · have := (hy.operand _ between hk r hr).1
        omega
      · simp only [List.length_append] at hlen
        have := (List.getElem?_eq_some_iff.mp hi).1
        simp only [List.length_append, List.length_singleton] at this
        omega
  · intro i function name value' hi
    rw [List.getElem?_append] at hi
    split at hi
    · obtain ⟨next, hnext, hserves⟩ := hxy.pass i function name value' hi
      have hlen := (List.getElem?_eq_some_iff.mp hnext).1
      exact ⟨next, by rw [List.getElem?_append_left hlen]; exact hnext, hserves⟩
    · cases List.mem_singleton.mp (List.mem_of_getElem? hi)

end Shaped

section Expressions

variable {ctx : Context}

/-- Code that has the shape of flat code and only computes values. -/
structure Computes (start : Nat) (code : List Instruction) : Prop where
  shaped : Shaped start code
  inner : ∀ x ∈ code, x.isInner = true

namespace Computes

variable {start : Nat} {xs ys : List Instruction}

theorem nil : Computes start [] :=
  ⟨.nil, by simp⟩

theorem single {instr : Instruction} (h : instr.operands = [])
    (hpass : instr.isParameter = false) (hinner : instr.isInner = true) :
    Computes start [instr] :=
  ⟨.single h hpass, fun x hx => by rw [List.mem_singleton.mp hx]; exact hinner⟩

theorem append (hx : Computes start xs) (hy : Computes (start + xs.length) ys) :
    Computes start (xs ++ ys) :=
  ⟨hx.shaped.append hy.shaped, fun z hz => (List.mem_append.mp hz).elim (hx.inner z) (hy.inner z)⟩

/-- A value computed from others. -/
theorem snoc {user : Instruction} (hx : Computes start xs) (hinner : user.isInner = true)
    (hrange : ∀ r ∈ user.operands, start ≤ r ∧ r < start + xs.length)
    (hparameter : user.isParameter = false) : Computes start (xs ++ [user]) := by
  have hassign : user.isAssign = false := by
    cases user with
    | assign => cases hinner
    | _ => rfl
  refine ⟨hx.shaped.snoc hx.inner hrange hassign hparameter, fun z hz => ?_⟩
  rcases List.mem_append.mp hz with hz | hz
  · exact hx.inner z hz
  · rw [List.mem_singleton.mp hz]
    exact hinner

end Computes

/-- The code of an evaluation is one longer than what stands before its value. -/
theorem Evaluation.length_code (e : Evaluation) : e.code.length = e.before.length + 1 := by
  simp [Evaluation.code]

/-- The value of an evaluation is the last of its code. -/
theorem Evaluation.ref_range (e : Evaluation) (start : Nat) :
    start ≤ e.ref start ∧ e.ref start + 1 = start + e.code.length := by
  rw [e.length_code, Evaluation.ref]
  omega

theorem Evaluation.next_eq (e : Evaluation) (start : Nat) :
    e.next start = start + e.code.length :=
  (e.ref_range start).2

/-- A variable is read by a single value. -/
theorem readVar_code (var : Var) (symbol : Model.Symbol) (start : Nat) :
    Computes start (readVar var symbol).code := by
  unfold readVar
  split
  · exact .single rfl rfl rfl
  · exact .single rfl rfl rfl
  · exact .single rfl rfl rfl
  · exact .single rfl rfl rfl
  · split
    · exact .single rfl rfl rfl
    · unfold literalOf
      split
      · exact .single rfl rfl rfl
      · exact .single rfl rfl rfl

theorem arrayBase?_code {var : Var} {symbol : Model.Symbol} {array : Instruction} {space : Space}
    (h : arrayBase? var symbol = some (array, space)) (start : Nat) : Computes start [array] := by
  unfold arrayBase? at h
  split at h
  all_goals cases h
  all_goals exact .single rfl rfl rfl

/-- An array that can be written can be read. -/
theorem arrayBase?_of_writableBase? {var : Var} {symbol : Model.Symbol} {array : Instruction}
    (h : writableBase? var symbol = some array) : arrayBase? var symbol = some (array, .ram) := by
  unfold writableBase? at h
  split at h
  all_goals cases h
  all_goals simp only [arrayBase?, *]

/-- A variable that is written is named by a single instruction. -/
theorem writeVar?_code {var : Var} {symbol : Model.Symbol} {place : Evaluation}
    (h : writeVar? var symbol = some place) (start : Nat) : Computes start place.code := by
  unfold writeVar? at h
  split at h
  all_goals cases h
  all_goals exact .single rfl rfl rfl

/-- An outcome that is not an error is the value. -/
theorem orError_eq_ok {α : Type} {e : CompileError} {x : Option α} {a : α} :
    orError e x = .ok a ↔ x = some a := by
  cases x with
  | none => simp [orError]
  | some b => simp [orError]

theorem mem_passing {label : String} {callee : Model.Function} {refs : List Nat} {y : Instruction}
    (h : y ∈ passing label callee refs) :
    ∃ name, ∃ r ∈ refs, y = .parameter label name r := by
  obtain ⟨⟨parameter, r⟩, hmem, rfl⟩ := List.mem_map.mp h
  exact ⟨parameter.name, r, (List.of_mem_zip hmem).2, rfl⟩

/-- **A call behind its arguments.**  The parameters are passed one after the other,
and the call follows them. -/
theorem call_shaped {start : Nat} {code : List Instruction} {refs : List Nat} {label : String}
    {callee : Model.Function} (hcode : Computes start code)
    (hrefs : ∀ r ∈ refs, start ≤ r ∧ r < start + code.length) (result : Option Width) :
    Shaped start (code ++ passing label callee refs ++ [.call label result]) := by
  have hmem : ∀ y ∈ passing label callee refs ++ [Instruction.call label result],
      (∃ name, ∃ r ∈ refs, y = .parameter label name r) ∨ y = .call label result := fun y hy =>
    (List.mem_append.mp hy).imp mem_passing List.mem_singleton.mp
  rw [List.append_assoc]
  refine hcode.shaped.extend hcode.inner ?_ ?_ ?_ ?_
  · intro y hy r hr
    rcases hmem y hy with ⟨name, r', hr', rfl⟩ | rfl
    · rw [List.mem_singleton.mp hr]
      exact hrefs r' hr'
    · cases hr
  · intro y hy
    rcases hmem y hy with ⟨name, r', hr', rfl⟩ | rfl
    · rfl
    · rfl
  · intro i y hi hlt
    rw [List.length_append, List.length_singleton] at hlt
    rw [List.getElem?_append_left (by omega)] at hi
    obtain ⟨name, r, _, rfl⟩ := mem_passing (List.mem_of_getElem? hi)
    rfl
  · intro i function name value hi
    have hserves : ∀ y ∈ passing label callee refs ++ [Instruction.call label result],
        y.serves label = true := by
      intro y hy
      rcases hmem y hy with ⟨name, r', hr', rfl⟩ | rfl
      · simp [Instruction.serves]
      · simp [Instruction.serves]
    have hfunction : label = function := by
      have := hserves _ (List.mem_of_getElem? hi)
      simpa [Instruction.serves, eq_comm] using this
    have hlt : i < (passing label callee refs).length := by
      rw [List.getElem?_append] at hi
      split at hi
      · assumption
      · cases List.mem_singleton.mp (List.mem_of_getElem? hi)
    have hnext : i + 1 < (passing label callee refs ++ [Instruction.call label result]).length := by
      rw [List.length_append, List.length_singleton]
      omega
    refine ⟨_, List.getElem?_eq_getElem hnext, ?_⟩
    rw [← hfunction]
    exact hserves _ (List.getElem_mem hnext)

/-- A value computed from two others. -/
theorem pair_computes {start : Nat} (left : Evaluation) {right : Evaluation} {user : Instruction}
    (hleft : Computes start left.code) (hright : Computes (start + left.code.length) right.code)
    (huser : user.operands = [left.ref start, right.ref (start + left.code.length)])
    (hinner : user.isInner = true) (hparameter : user.isParameter = false) :
    Computes start (left.code ++ right.code ++ [user]) := by
  refine (hleft.append hright).snoc hinner ?_ hparameter
  intro r hr
  have hrange := left.ref_range start
  have hrange' := right.ref_range (start + left.code.length)
  rw [huser] at hr
  rw [List.length_append]
  rcases List.mem_cons.mp hr with rfl | hr
  · omega
  · rw [List.mem_singleton.mp hr]
    omega

mutual

/-- **An expression becomes code that computes values**, the last of which is its
own. -/
theorem evaluate_computes :
    ∀ (e : Expr) {start : Nat} {out : Evaluation}, evaluate ctx start e = .ok out →
      Computes start out.code
  | .int value, start, out, h => by
    cases h
    exact .single rfl rfl rfl
  | .bool value, start, out, h => by
    cases h
    exact .single rfl rfl rfl
  | .var label, start, out, h => by
    obtain ⟨⟨var, symbol⟩, _, h⟩ := bind_eq_ok.mp h
    cases h
    exact readVar_code var symbol start
  | .index label index, start, out, h => by
    obtain ⟨⟨var, symbol⟩, _, h⟩ := bind_eq_ok.mp h
    obtain ⟨⟨array, space⟩, harray, h⟩ := bind_eq_ok.mp h
    obtain ⟨value, hvalue, h⟩ := bind_eq_ok.mp h
    cases h
    have hbase := arrayBase?_code (orError_eq_ok.mp harray) start
    exact pair_computes (.single array .word) hbase (evaluate_computes index hvalue)
      rfl rfl rfl
  | .unary op operand, start, out, h => by
    obtain ⟨value, hvalue, h⟩ := bind_eq_ok.mp h
    cases h
    refine (evaluate_computes operand hvalue).snoc rfl ?_ rfl
    intro r hr
    have hrange := value.ref_range start
    rw [List.mem_singleton.mp hr]
    omega
  | .binary op lhs rhs, start, out, h => by
    obtain ⟨left, hleft, h⟩ := bind_eq_ok.mp h
    obtain ⟨right, hright, h⟩ := bind_eq_ok.mp h
    cases h
    rw [left.next_eq] at hright ⊢
    exact pair_computes left (evaluate_computes lhs hleft) (evaluate_computes rhs hright) rfl rfl rfl
  | .compare op lhs rhs, start, out, h => by
    obtain ⟨left, hleft, h⟩ := bind_eq_ok.mp h
    obtain ⟨right, hright, h⟩ := bind_eq_ok.mp h
    cases h
    rw [left.next_eq] at hright ⊢
    exact pair_computes left (evaluate_computes lhs hleft) (evaluate_computes rhs hright) rfl rfl rfl
  | .call function arguments, start, out, h => by
    obtain ⟨callee, _, h⟩ := bind_eq_ok.mp h
    obtain ⟨⟨code, refs⟩, hcode, h⟩ := bind_eq_ok.mp h
    obtain ⟨hcomputes, hrefs⟩ := evaluateAll_computes arguments hcode
    cases hreturns : callee.returns with
    | none =>
        rw [hreturns] at h
        cases h
    | some type =>
        rw [hreturns] at h
        cases h
        refine ⟨call_shaped hcomputes hrefs _, fun z hz => ?_⟩
        rcases List.mem_append.mp hz with hz | hz
        · rcases List.mem_append.mp hz with hz | hz
          · exact hcomputes.inner z hz
          · obtain ⟨name, r, _, rfl⟩ := mem_passing hz
            rfl
        · rw [List.mem_singleton.mp hz]
          rfl

/-- Expressions, one after the other, become code that computes values, and their
own are among them. -/
theorem evaluateAll_computes :
    ∀ (es : List Expr) {start : Nat} {code : List Instruction} {refs : List Nat},
      evaluateAll ctx start es = .ok (code, refs) →
      Computes start code ∧ ∀ r ∈ refs, start ≤ r ∧ r < start + code.length
  | [], start, code, refs, h => by
    cases h
    exact ⟨.nil, by simp⟩
  | e :: rest, start, code, refs, h => by
    obtain ⟨value, hvalue, h⟩ := bind_eq_ok.mp h
    obtain ⟨⟨code', refs'⟩, hrest, h⟩ := bind_eq_ok.mp h
    cases h
    rw [value.next_eq] at hrest
    obtain ⟨hcode, hrefs⟩ := evaluateAll_computes rest hrest
    refine ⟨(evaluate_computes e hvalue).append hcode, fun r hr => ?_⟩
    have hrange := value.ref_range start
    rw [List.length_append]
    rcases List.mem_cons.mp hr with rfl | hr
    · omega
    · have := hrefs r hr
      omega

end

/-- The target of an assignment becomes code that computes values. -/
theorem evaluatePlace_computes {e : Expr} {start : Nat} {out : Evaluation}
    (h : evaluatePlace ctx start e = .ok out) : Computes start out.code := by
  unfold evaluatePlace at h
  split at h
  · obtain ⟨⟨var, symbol⟩, _, h⟩ := bind_eq_ok.mp h
    exact writeVar?_code (orError_eq_ok.mp h) start
  · obtain ⟨⟨var, symbol⟩, _, h⟩ := bind_eq_ok.mp h
    obtain ⟨array, harray, h⟩ := bind_eq_ok.mp h
    obtain ⟨value, hvalue, h⟩ := bind_eq_ok.mp h
    cases h
    have hbase := arrayBase?_code (arrayBase?_of_writableBase? (orError_eq_ok.mp harray)) start
    exact pair_computes (.single array .word) hbase (evaluate_computes _ hvalue)
      rfl rfl rfl
  · cases h

/-- A value that is put to use at once. -/
theorem use_shaped {e : Expr} {start : Nat} {value : Evaluation} {user : Instruction}
    (hvalue : evaluate ctx start e = .ok value) (huser : user.operands = [value.ref start])
    (hassign : user.isAssign = false) (hparameter : user.isParameter = false) :
    Shaped start (value.code ++ [user]) := by
  have hcode := evaluate_computes e hvalue
  refine hcode.shaped.snoc hcode.inner ?_ hassign hparameter
  intro r hr
  rw [huser] at hr
  rw [List.mem_singleton.mp hr]
  have := value.ref_range start
  omega

/-- **A simple statement becomes code of the right shape.**  This is where calls, assignments and
returns are looked at one by one; larger statements only put such code together. -/
theorem simpleCode_shaped {stmt : Stmt} {start : Nat} {code : List Instruction}
    (h : simpleCode ctx start stmt = .ok code) : Shaped start code := by
  unfold simpleCode at h
  split at h
  · obtain ⟨value, hvalue, h⟩ := bind_eq_ok.mp h
    obtain ⟨place, hplace, h⟩ := bind_eq_ok.mp h
    cases h
    rw [value.next_eq] at hplace ⊢
    have hcode := evaluate_computes _ hvalue
    have hcode' := evaluatePlace_computes hplace
    have hrange := value.ref_range start
    have hrange' := place.ref_range (start + value.code.length)
    exact hcode.shaped.snoc_assign hcode'.shaped hcode.inner hcode'.inner hrange (by omega)
  · obtain ⟨callee, _, h⟩ := bind_eq_ok.mp h
    obtain ⟨⟨code, refs⟩, hcode, h⟩ := bind_eq_ok.mp h
    cases h
    obtain ⟨hcomputes, hrefs⟩ := evaluateAll_computes _ hcode
    exact call_shaped hcomputes hrefs none
  · cases h
    exact .single rfl rfl
  · obtain ⟨value, hvalue, h⟩ := bind_eq_ok.mp h
    cases h
    exact use_shaped hvalue rfl rfl rfl
  · obtain ⟨value, hvalue, h⟩ := bind_eq_ok.mp h
    cases h
    exact use_shaped hvalue rfl rfl rfl
  all_goals cases h
  all_goals first | exact .single rfl rfl | exact .nil

end Expressions

section Ops

/-- The instructions of ops. -/
def codeOf (ops : List Op) : List Instruction :=
  ops.map (·.instruction)

/-- Ops, one after the other, have the instructions of both. -/
@[simp]
theorem codeOf_append (xs ys : List Op) : codeOf (xs ++ ys) = codeOf xs ++ codeOf ys :=
  List.map_append

@[simp]
theorem codeOf_opsAt (position : Option Position) (code : List Instruction) :
    codeOf (opsAt position code) = code := by
  simp [codeOf, opsAt, Op.fresh, Function.comp_def]

@[simp]
theorem length_codeOf (ops : List Op) : (codeOf ops).length = ops.length :=
  List.length_map _

theorem codeOf_getElem? {ops : List Op} {i : Nat} {op : Op} (h : ops[i]? = some op) :
    (codeOf ops)[i]? = some op.instruction := by
  rw [codeOf, List.getElem?_map, h]
  rfl

/-- Every instruction of ops is that of the op at its index. -/
theorem exists_of_codeOf_getElem? {ops : List Op} {i : Nat} {instr : Instruction}
    (h : (codeOf ops)[i]? = some instr) : ∃ op, ops[i]? = some op ∧ op.instruction = instr := by
  rw [codeOf, List.getElem?_map] at h
  exact Option.map_eq_some_iff.mp h

end Ops

end Stackless.Flat
