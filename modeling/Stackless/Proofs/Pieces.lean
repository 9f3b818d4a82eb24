import Stackless.Proofs.Flattening

/-!
# The pieces of a flat body

A flat body is a row of **pieces** that stand by themselves: markers and jumps, the
test of a condition, the code of a simple statement.  No piece uses a value of
another, and inside a piece all instructions but the last compute values.

* `pieces_of_flatBody` — a flat body is a row of pieces, made for the statements of
  its function;
* `Pieces.exists_piece` — every instruction of such a row stands in a piece;
* `Pieces.inner_before` — from an operand up to its user there stand only values.

What is known of the code of expressions and simple statements is known of a whole
body by going from piece to piece.
-/

namespace Stackless

namespace Model

mutual

/-- What a statement is made of: itself, unless it only holds others together, and the
parts of those inside it. -/
def Stmt.parts : Stmt → List Stmt
  | .block body => partsAll body
  | .branch condition consequent none =>
    .branch condition consequent none :: partsLocated consequent
  | .branch condition consequent (some alternative) =>
    .branch condition consequent (some alternative) ::
      (partsLocated consequent ++ partsLocated alternative)
  | .loop body => partsLocated body
  | stmt => [stmt]

/-- The parts of a statement with a position. -/
def partsLocated : Located Stmt → List Stmt
  | ⟨_, stmt⟩ => stmt.parts

/-- The parts of statements one after another. -/
def partsAll : List (Located Stmt) → List Stmt
  | [] => []
  | stmt :: rest => partsLocated stmt ++ partsAll rest

end

theorem Stmt.branch_mem_parts (condition : Expr) (consequent : Located Stmt)
    (alternative : Option (Located Stmt)) :
    .branch condition consequent alternative ∈ (Stmt.branch condition consequent alternative).parts := by
  cases alternative with
  | none => simp [parts]
  | some alternative => simp [parts]

/-- What the body of a function is made of. -/
def Function.statements (f : Function) : List Stmt :=
  partsAll f.body

end Model

namespace Flat

open Model (Stmt Expr)

/-- A piece of flat code, made from an index on for one of the statements. -/
inductive Piece (ctx : Context) (stmts : List Stmt) (start : Nat) : List Instruction → Prop
  | marker (name : String) : Piece ctx stmts start [.marker name]
  | jump (target : Target) : Piece ctx stmts start [.jump target]
  /-- The test of a condition. -/
  | test {condition consequent alternative value} (expected : Bool) (target : Target) :
      .branch condition consequent alternative ∈ stmts →
      evaluate ctx start (polarity condition).1 = .ok value →
      Piece ctx stmts start (value.code ++ [.branch expected (value.ref start) target])
  | simple {stmt code} :
      stmt ∈ stmts → isSimple stmt = true → simpleCode ctx start stmt = .ok code →
      Piece ctx stmts start code
  /-- The return behind all statements. -/
  | ending : Piece ctx stmts start [.ret none]

/-- A row of pieces, the first of which stands at an index. -/
inductive Pieces (ctx : Context) (stmts : List Stmt) : Nat → List Instruction → Prop
  | nil {start} : Pieces ctx stmts start []
  | cons {start piece rest} :
      Piece ctx stmts start piece → Pieces ctx stmts (start + piece.length) rest →
      Pieces ctx stmts start (piece ++ rest)

/-- More statements may be there. -/
theorem Piece.mono {ctx : Context} {stmts stmts' : List Stmt} {start : Nat}
    {code : List Instruction} (h : Piece ctx stmts start code) (hsub : stmts ⊆ stmts') :
    Piece ctx stmts' start code := by
  cases h with
  | marker name => exact .marker name
  | jump target => exact .jump target
  | test expected target hmem hvalue => exact .test expected target (hsub hmem) hvalue
  | simple hmem hsimple hcode => exact .simple (hsub hmem) hsimple hcode
  | ending => exact .ending

/-- The instructions before the last one of a piece compute values. -/
theorem Piece.split {ctx : Context} {stmts : List Stmt} {start : Nat} {code : List Instruction}
    (h : Piece ctx stmts start code) :
    ∃ inner last, code = inner ++ [last] ∧ ∀ x ∈ inner, x.isInner = true := by
  cases h with
  | marker name => exact ⟨[], _, rfl, by simp⟩
  | jump target => exact ⟨[], _, rfl, by simp⟩
  | test expected target _ hvalue => exact ⟨_, _, rfl, (evaluate_computes _ hvalue).inner⟩
  | simple _ hsimple hcode =>
      obtain ⟨inner, last, rfl, hinner, _⟩ := simpleCode_split hsimple hcode
      exact ⟨inner, last, rfl, hinner⟩
  | ending => exact ⟨[], _, rfl, by simp⟩

/-- A piece has the shape of flat code. -/
theorem Piece.shaped {ctx : Context} {stmts : List Stmt} {start : Nat} {code : List Instruction}
    (h : Piece ctx stmts start code) : Shaped start code := by
  cases h with
  | marker name => exact .single rfl rfl
  | jump target => exact .single rfl rfl
  | test expected target _ hvalue => exact use_shaped hvalue rfl rfl rfl
  | simple _ _ hcode => exact simpleCode_shaped hcode
  | ending => exact .single rfl rfl

namespace Pieces

variable {ctx : Context} {stmts stmts' : List Stmt} {start : Nat} {xs ys code : List Instruction}

theorem single (h : Piece ctx stmts start xs) : Pieces ctx stmts start xs := by
  have hrow : Pieces ctx stmts start (xs ++ []) := .cons h .nil
  rwa [List.append_nil] at hrow

/-- Rows one after the other. -/
theorem append (hx : Pieces ctx stmts start xs) (hy : Pieces ctx stmts (start + xs.length) ys) :
    Pieces ctx stmts start (xs ++ ys) := by
  induction hx with
  | nil => exact hy
  | cons hpiece _ ih =>
      rw [List.length_append, ← Nat.add_assoc] at hy
      rw [List.append_assoc]
      exact .cons hpiece (ih hy)

theorem mono (h : Pieces ctx stmts start code) (hsub : stmts ⊆ stmts') :
    Pieces ctx stmts' start code := by
  induction h with
  | nil => exact .nil
  | cons hpiece _ ih => exact .cons (hpiece.mono hsub) ih

/-- **Every instruction of a row stands in a piece** that was made for the index at which it starts,
so that what is proved of single pieces holds of the whole row. -/
theorem exists_piece (h : Pieces ctx stmts start code) {i : Nat} {instr : Instruction}
    (hi : code[i]? = some instr) :
    ∃ a piece, Piece ctx stmts (start + a) piece ∧ a ≤ i ∧ i < a + piece.length ∧
      ∀ k, k < piece.length → code[a + k]? = piece[k]? := by
  induction h generalizing i with
  | nil => cases hi
  | @cons start piece rest hpiece _ ih =>
      by_cases hlt : i < piece.length
      · refine ⟨0, piece, hpiece, Nat.zero_le i, by omega, fun k hk => ?_⟩
        rw [Nat.zero_add, List.getElem?_append_left hk]
      · rw [List.getElem?_append_right (by omega)] at hi
        obtain ⟨a, piece', hpiece', hle, hlt', hat⟩ := ih hi
        refine ⟨piece.length + a, piece', ?_, by omega, by omega, fun k hk => ?_⟩
        · rw [← Nat.add_assoc]
          exact hpiece'
        · rw [← hat k hk, List.getElem?_append_right (by omega)]
          congr 1
          omega

/-- Up to a user there stand only values from its operands on. Jumps, markers, assignments and
returns end a piece, and no operand comes from another piece. -/
theorem inner_before (h : Pieces ctx stmts 0 code) {j r : Nat} {user : Instruction}
    (huser : code[j]? = some user) (hr : r ∈ user.operands) :
    ∀ k, r ≤ k → k < j → ∃ x, code[k]? = some x ∧ x.isInner = true := by
  obtain ⟨a, piece, hpiece, hle, hlt, hat⟩ := h.exists_piece huser
  obtain ⟨inner, last, rfl, hinner⟩ := hpiece.split
  obtain ⟨i, rfl⟩ : ∃ i, j = a + i := ⟨j - a, by omega⟩
  rw [hat i (by omega)] at huser
  have hrange := hpiece.shaped.operand i user huser r hr
  intro k hrk hkj
  obtain ⟨n, rfl⟩ : ∃ n, k = a + n := ⟨k - a, by omega⟩
  rw [List.length_append, List.length_singleton] at hlt
  have hn : n < inner.length := by omega
  refine ⟨inner[n], ?_, hinner _ (List.getElem_mem hn)⟩
  rw [hat n (by simp only [List.length_append, List.length_singleton]; omega),
    List.getElem?_append_left hn, List.getElem?_eq_getElem hn]

/-- **What computes no value ends its piece.** -/
theorem exists_ended (h : Pieces ctx stmts 0 code) {j : Nat} {x : Instruction}
    (hj : code[j]? = some x) (hx : x.isInner = false) :
    ∃ a inner, Piece ctx stmts a (inner ++ [x]) ∧ j = a + inner.length ∧
      ∀ k, k < inner.length → code[a + k]? = inner[k]? := by
  obtain ⟨a, piece, hpiece, hle, hlt, hat⟩ := h.exists_piece hj
  rw [Nat.zero_add] at hpiece
  obtain ⟨inner, last, rfl, hinner⟩ := hpiece.split
  rw [List.length_append, List.length_singleton] at hlt hat
  have hlast : (inner ++ [last])[j - a]? = some x := by
    rw [← hat _ (by omega), Nat.add_sub_cancel' hle]
    exact hj
  have hindex : j - a = inner.length := by
    by_cases hbefore : j - a < inner.length
    · rw [List.getElem?_append_left hbefore] at hlast
      rw [hinner x (List.mem_of_getElem? hlast)] at hx
      cases hx
    · omega
  rw [hindex, List.getElem?_append_right (Nat.le_refl _), Nat.sub_self] at hlast
  obtain rfl : last = x := Option.some.inj hlast
  refine ⟨a, inner, hpiece, by omega, fun k hk => ?_⟩
  rw [hat k (by omega), List.getElem?_append_left hk]

end Pieces

/-- The width of the place that an instruction names. -/
def Instruction.placeWidth? : Instruction → Option Width
  | .register _ | .portOut _ | .address _ _ => some .word
  | .bit _ => some .bit
  | _ => none

/-- The target of an assignment is a place of its width. -/
theorem placeWidth?_evaluatePlace {ctx : Context} {e : Expr} {start : Nat} {place : Evaluation}
    (h : evaluatePlace ctx start e = .ok place) :
    place.result.placeWidth? = some place.width := by
  unfold evaluatePlace at h
  split at h
  · obtain ⟨⟨var, symbol⟩, _, h⟩ := bind_eq_ok.mp h
    have hwrite := orError_eq_ok.mp h
    unfold writeVar? at hwrite
    split at hwrite
    all_goals cases hwrite
    all_goals rfl
  · obtain ⟨⟨var, symbol⟩, _, h⟩ := bind_eq_ok.mp h
    obtain ⟨array, _, h⟩ := bind_eq_ok.mp h
    obtain ⟨value, _, h⟩ := bind_eq_ok.mp h
    cases h
    rfl
  · cases h

/-- An assignment as a piece: its statement, the code of its value, and that of its
place. -/
structure AssignPiece (ctx : Context) (stmts : List Stmt) (code : List Instruction)
    (op : Option Model.MathOp) (width : Width) (t v j : Nat) where
  start : Nat
  target : Expr
  value : Expr
  source : Evaluation
  place : Evaluation
  mem : .assign target op value ∈ stmts
  source_eq : evaluate ctx start value = .ok source
  place_eq : evaluatePlace ctx (source.next start) target = .ok place
  width_eq : width = place.width
  target_eq : t = place.ref (source.next start)
  value_eq : v = source.ref start
  index_eq : j = start + (source.code ++ place.code).length
  code_eq : ∀ k, k < (source.code ++ place.code).length →
    code[start + k]? = (source.code ++ place.code)[k]?

namespace AssignPiece

variable {ctx : Context} {stmts : List Stmt} {code : List Instruction} {op : Option Model.MathOp}
  {width : Width} {t v j : Nat} (p : AssignPiece ctx stmts code op width t v j)

include p

theorem value_at : code[v]? = some p.source.result := by
  have hlt : p.source.before.length < p.source.code.length := by simp [Evaluation.code]
  have hv : code[v]? = code[p.start + p.source.before.length]? := congrArg (code[·]?) p.value_eq
  rw [hv, p.code_eq _ (by rw [List.length_append]; omega), List.getElem?_append_left hlt]
  simp [Evaluation.code]

/-- The place stands before the assignment. -/
theorem target_at : code[t]? = some p.place.result := by
  have hlt : p.place.before.length < p.place.code.length := by simp [Evaluation.code]
  have ht : code[t]? = code[p.start + (p.source.code.length + p.place.before.length)]? := by
    rw [← Nat.add_assoc, ← Evaluation.next_eq]
    exact congrArg (code[·]?) p.target_eq
  rw [ht, p.code_eq _ (by rw [List.length_append]; omega), List.getElem?_append_right (by omega),
    Nat.add_sub_cancel_left]
  simp [Evaluation.code]

end AssignPiece

/-- A piece that ends in an assignment was made for one. -/
theorem Piece.of_assign {ctx : Context} {stmts : List Stmt} {start t v : Nat}
    {code inner : List Instruction} {op : Option Model.MathOp} {width : Width}
    (h : Piece ctx stmts start code) (hend : code = inner ++ [.assign op width t v]) :
    ∃ target value source place, .assign target op value ∈ stmts ∧
      evaluate ctx start value = .ok source ∧
      evaluatePlace ctx (source.next start) target = .ok place ∧
      inner ++ [.assign op width t v] = source.code ++ place.code ++
        [.assign op place.width (place.ref (source.next start)) (source.ref start)] := by
  have hlast : ∀ {rest : List Instruction} {x : Instruction}, code = rest ++ [x] →
      x = .assign op width t v := by
    intro rest x hx
    rw [hend] at hx
    exact (List.cons.inj (List.append_inj' hx rfl).2).1.symm
  cases h with
  | marker name => cases hlast (List.nil_append _).symm
  | jump target => cases hlast (List.nil_append _).symm
  | ending => cases hlast (List.nil_append _).symm
  | test expected target _ _ => cases hlast rfl
  | @simple stmt _ hmem hsimple hcode =>
      cases stmt with
      | assign target op' value =>
          obtain ⟨source, hsource, hcode⟩ := bind_eq_ok.mp hcode
          obtain ⟨place, hplace, hcode⟩ := bind_eq_ok.mp hcode
          cases hcode
          cases hlast rfl
          exact ⟨target, value, source, place, hmem, hsource, hplace, hend.symm⟩
      | call function arguments =>
          obtain ⟨callee, _, hcode⟩ := bind_eq_ok.mp hcode
          obtain ⟨⟨code', refs⟩, _, hcode⟩ := bind_eq_ok.mp hcode
          cases hcode
          cases hlast rfl
      | ret value =>
          cases value with
          | none =>
              cases hcode
              cases hlast (List.nil_append _).symm
          | some value =>
              obtain ⟨value', _, hcode⟩ := bind_eq_ok.mp hcode
              cases hcode
              cases hlast rfl
      | timer value =>
          obtain ⟨value', _, hcode⟩ := bind_eq_ok.mp hcode
          cases hcode
          cases hlast rfl
      | level | halt | pause | reset | restart | nop =>
          cases hcode
          cases hlast (List.nil_append _).symm
      | block | branch | loop | breakLoop | continueLoop => cases hsimple

/-- **Every assignment of a row stands at the end of its piece.** -/
theorem Pieces.exists_assignPiece {ctx : Context} {stmts : List Stmt} {code : List Instruction}
    (h : Pieces ctx stmts 0 code) {op : Option Model.MathOp} {width : Width} {t v j : Nat}
    (hj : code[j]? = some (.assign op width t v)) :
    Nonempty (AssignPiece ctx stmts code op width t v j) := by
  obtain ⟨a, inner, hpiece, rfl, hat⟩ := h.exists_ended hj rfl
  obtain ⟨target, value, source, place, hmem, hsource, hplace, hcode⟩ := hpiece.of_assign rfl
  obtain ⟨hinner, hassign⟩ := List.append_inj' hcode rfl
  subst hinner
  cases hassign
  exact ⟨⟨a, target, value, source, place, hmem, hsource, hplace, rfl, rfl, rfl, rfl, hat⟩⟩

/-- A test in front of a row. -/
theorem pieces_test {ctx : Context} {stmts : List Stmt} {start : Nat} {condition : Expr}
    {consequent : Located Stmt} {alternative : Option (Located Stmt)} {value : Evaluation}
    {rest : List Instruction} (hmem : .branch condition consequent alternative ∈ stmts)
    (hvalue : evaluate ctx start (polarity condition).1 = .ok value) (expected : Bool)
    (target : Target) (hrest : Pieces ctx stmts (value.next start + 1) rest) :
    Pieces ctx stmts start
      (value.code ++ [.branch expected (value.ref start) target] ++ rest) := by
  refine .cons (.test expected target hmem hvalue) ?_
  rwa [List.length_append, List.length_singleton, ← Nat.add_assoc, ← value.next_eq]

theorem pieces_join {ctx : Context} {stmts : List Stmt} {start : Nat} (target : Target)
    (name : String) : Pieces ctx stmts start [.jump target, .marker name] :=
  .cons (.jump target) (.single (.marker name))

/-- **Statements become rows of pieces.** -/
theorem Flattens.pieces {ctx : Context} {loop : Option LoopMarkers} {position : Option Position}
    {start markers final : Nat} {stmt : Stmt} {ops : List Op}
    (h : Flattens ctx loop position start markers stmt ops final) :
    Pieces ctx stmt.parts start (codeOf ops) := by
  induction h with
  | nil => exact .nil
  | cons _ _ ihfirst ihothers =>
      rw [codeOf_append]
      rw [← length_codeOf] at ihothers
      exact (ihfirst.mono (List.subset_append_left _ _)).append
        (ihothers.mono (List.subset_append_right _ _))
  | exit hvalue _ _ =>
      rw [codeOf_opsAt]
      exact .single (.test _ _ (Stmt.branch_mem_parts _ _ _) hvalue)
  | exitElse hvalue _ _ _ ih =>
      rw [codeOf_append, codeOf_opsAt]
      refine pieces_test (Stmt.branch_mem_parts _ _ _) hvalue _ _ (ih.mono ?_)
      exact List.subset_cons_of_subset _ (List.subset_append_right _ _)
  | choose hvalue _ _ ih =>
      simp only [codeOf_append, codeOf_opsAt]
      rw [List.append_assoc]
      refine pieces_test (Stmt.branch_mem_parts _ _ _) hvalue _ _ (.append (ih.mono ?_)
        (.single (.marker _)))
      exact List.subset_cons_self _ _
  | chooseElse hvalue _ _ _ ihbody ihothers =>
      simp only [codeOf_append, codeOf_opsAt]
      rw [List.append_assoc, List.append_assoc, List.append_assoc]
      rw [← length_codeOf] at ihothers
      refine pieces_test (Stmt.branch_mem_parts _ _ _) hvalue _ _ (.append (ihbody.mono ?_)
        (.append (pieces_join _ _) (.append (ihothers.mono ?_) (.single (.marker _)))))
      · exact List.subset_cons_of_subset _ (List.subset_append_left _ _)
      · exact List.subset_cons_of_subset _ (List.subset_append_right _ _)
  | loop _ ih =>
      simp only [codeOf_append, codeOf_opsAt]
      rw [List.append_assoc]
      exact .cons (.marker _) (.append ih (pieces_join _ _))
  | breakLoop _ | continueLoop _ =>
      rw [codeOf_opsAt]
      exact .single (.jump _)
  | @simple _ _ _ _ stmt _ hsimple hcode =>
      have hself : stmt ∈ stmt.parts := by
        cases stmt with
        | block | branch | loop => cases hsimple
        | _ => simp [Stmt.parts]
      rw [codeOf_opsAt]
      exact .single (.simple hself hsimple hcode)

/-- **A flat body is a row of pieces**, made for the statements of its function. -/
theorem pieces_of_flatBody {ctx : Context} {body : List Op} (h : flatBody ctx = .ok body) :
    Pieces ctx ctx.function.statements 0 (codeOf body) := by
  obtain ⟨ops, markers, hflattens, rfl⟩ := flatBody_eq_ok h
  have hpieces : Pieces ctx ctx.function.statements 1 (codeOf ops) := hflattens.pieces
  rw [codeOf_append, codeOf_append, codeOf_opsAt, List.append_assoc]
  refine .cons (.marker _) (.append hpieces ?_)
  split
  · exact .nil
  · exact .single .ending

end Flat

end Stackless
