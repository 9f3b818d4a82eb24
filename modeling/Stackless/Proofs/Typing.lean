import Mathlib.Data.List.Forall2
import Stackless.Proofs.Sources

/-!
# Typed programs

An expression is of a **kind**, a bit or a word, and `kind?` computes it.  In a typed
program (`WellTyped`) every operator, statement, argument and result gets what it needs,
and the storage of every symbol fits its type.

Flattening keeps kinds.  `Suits` says of an instruction that the values it names are of the
kinds that it works on; in the flat code of a typed function all instructions suit
(`Pieces.fits`).  Operands are looked up in the code, so a piece of code that fits still
does when more code stands around it.
-/

namespace Stackless

open Flat (Width Instruction Context Evaluation resultWidth mathWidth)

namespace Model

/-- Whether an operation has a single operand. -/
def MathOp.isUnary : MathOp → Bool
  | .neg | .not | .logicalNot => true
  | _ => false

/-- Whether an operation changes a place of a width by a value of that width. -/
def MathOp.changes (width : Width) (op : MathOp) : Bool :=
  match width with
  | .bit => op = .and || op = .or || op = .logicalAnd || op = .logicalOr
  | .word => !op.isLogical && !op.isUnary

/-- The kind of a symbol: truth values are bits, and so is what is kept in the bit file. -/
def Symbol.kind (s : Symbol) : Width :=
  if s.type = .bool ∨ s.storage = .bit then .bit else .word

/-- The storage of a symbol fits its type: truth values are in the bit file or constants, and
other scalars are not in the bit file. -/
def Symbol.Stored (s : Symbol) : Prop :=
  if s.type = .bool then s.storage = .bit ∨ (s.storage = .rom ∧ s.isArray = false)
  else s.isArray = true ∨ s.storage ≠ .bit

instance (s : Symbol) : Decidable s.Stored :=
  inferInstanceAs (Decidable (if s.type = .bool then _ else _))

/-- The kinds of the arguments that a function takes. -/
def Function.kinds (f : Function) : List Width :=
  f.parameters.map fun p => resultWidth p.type

mutual

/-- The kind of an expression, if it has one. It has none if an operator gets an operand of the
wrong kind, or a call wrong arguments, somewhere in it. -/
def kind? (ctx : Context) : Expr → Option Width
  | .int _ => some .word
  | .bool _ => some .bit
  | .var label =>
    match ctx.symbol label with
    | .ok (_, symbol) => some symbol.kind
    | .error _ => none
  | .index _ index => if kind? ctx index = some .word then some .word else none
  | .unary op operand =>
    if op.isUnary = true ∧ kind? ctx operand = some (mathWidth op) then some (mathWidth op) else none
  | .binary op lhs rhs =>
    if op.isUnary = false ∧ kind? ctx lhs = some (mathWidth op) ∧
      kind? ctx rhs = some (mathWidth op) then some (mathWidth op) else none
  | .compare _ lhs rhs =>
    match kind? ctx lhs with
    | some kind => if kind? ctx rhs = some kind then some .bit else none
    | none => none
  | .call function arguments =>
    match ctx.program.function (ctx.calleeLabel function) with
    | .ok callee =>
      if kinds? ctx arguments = some callee.kinds then callee.returns.map resultWidth else none
    | .error _ => none

/-- The kinds of expressions, if they all have one. -/
def kinds? (ctx : Context) : List Expr → Option (List Width)
  | [] => some []
  | e :: rest =>
    match kind? ctx e, kinds? ctx rest with
    | some kind, some kinds => some (kind :: kinds)
    | _, _ => none

end

/-- Whether the expressions of a statement are of the kinds that it needs. Statements in it are not
looked at, as they are checked by themselves. -/
def checks (ctx : Context) : Stmt → Bool
  | .branch condition _ _ => kind? ctx condition = some .bit
  | .assign target op value =>
    match kind? ctx target with
    | some kind => kind? ctx value = some kind && op.all (MathOp.changes kind)
    | none => false
  | .call function arguments =>
    match ctx.program.function (ctx.calleeLabel function) with
    | .ok callee => kinds? ctx arguments = some callee.kinds
    | .error _ => false
  | .ret (some value) =>
    match ctx.function.returns with
    | some type => kind? ctx value = some (resultWidth type)
    | none => false
  | .timer value => kind? ctx value = some .word
  | _ => true

/-- A parameter has a symbol of its type, a scalar in a register or a bit. -/
def Function.Receives (f : Function) (p : Parameter) : Prop :=
  match f.symbols.find? p.name with
  | some symbol => symbol.type = p.type ∧ symbol.isArray = false ∧
      (symbol.storage = .register ∨ symbol.storage = .bit)
  | none => False

instance (f : Function) (p : Parameter) : Decidable (f.Receives p) := by
  unfold Function.Receives
  split <;> infer_instance

/-- A typed function of a program: its symbols are stored as their types require, none is called as
the result is, and each parameter and statement is typed. -/
structure Function.WellTyped (program : Program) (f : Function) : Prop where
  stored : ∀ symbol ∈ f.symbols.values, symbol.Stored
  unnamed : f.symbols.find? Storage.resultName = none
  distinct : (f.parameters.map (·.name)).Nodup
  receives : ∀ p ∈ f.parameters, f.Receives p
  checked : ∀ stmt ∈ f.statements, checks ⟨program, f⟩ stmt = true

instance (program : Program) (f : Function) : Decidable (f.WellTyped program) :=
  decidable_of_iff ((∀ symbol ∈ f.symbols.values, symbol.Stored) ∧
      f.symbols.find? Storage.resultName = none ∧ (f.parameters.map (·.name)).Nodup ∧
      (∀ p ∈ f.parameters, f.Receives p) ∧ ∀ stmt ∈ f.statements, checks ⟨program, f⟩ stmt = true)
    ⟨fun ⟨h1, h2, h3, h4, h5⟩ => ⟨h1, h2, h3, h4, h5⟩, fun ⟨h1, h2, h3, h4, h5⟩ => ⟨h1, h2, h3, h4, h5⟩⟩

/-- A typed program: every function is stored under its own label in the module that the
label names, and all symbols and functions are typed. -/
structure Program.WellTyped (program : Program) : Prop where
  filed : program.Filed
  stored : ∀ module ∈ program.modules.values, ∀ symbol ∈ module.symbols.values, symbol.Stored
  typed : ∀ module ∈ program.modules.values, ∀ f ∈ module.functions.values, f.WellTyped program

instance (program : Program) : Decidable program.WellTyped :=
  decidable_of_iff (program.Filed ∧
      (∀ module ∈ program.modules.values, ∀ symbol ∈ module.symbols.values, symbol.Stored) ∧
      ∀ module ∈ program.modules.values, ∀ f ∈ module.functions.values, f.WellTyped program)
    ⟨fun ⟨h1, h2, h3⟩ => ⟨h1, h2, h3⟩, fun ⟨h1, h2, h3⟩ => ⟨h1, h2, h3⟩⟩

/-- A function that is typed as to its operands: the storage of its symbols fits their types, and
the expressions of its statements are of the kinds that they need. -/
structure Function.OperandTyped (program : Program) (f : Function) : Prop where
  stored : ∀ symbol ∈ f.symbols.values, symbol.Stored
  checked : ∀ stmt ∈ f.statements, checks ⟨program, f⟩ stmt = true

instance (program : Program) (f : Function) : Decidable (f.OperandTyped program) :=
  decidable_of_iff ((∀ symbol ∈ f.symbols.values, symbol.Stored) ∧
      ∀ stmt ∈ f.statements, checks ⟨program, f⟩ stmt = true)
    ⟨fun h => ⟨h.1, h.2⟩, fun h => ⟨h.stored, h.checked⟩⟩

/-- A program that is typed as to its operands.  Functions may be stored anywhere, and parameters
and results may be declared in any way. -/
structure Program.OperandTyped (program : Program) : Prop where
  stored : ∀ module ∈ program.modules.values, ∀ symbol ∈ module.symbols.values, symbol.Stored
  typed : ∀ module ∈ program.modules.values, ∀ f ∈ module.functions.values, f.OperandTyped program

instance (program : Program) : Decidable program.OperandTyped :=
  decidable_of_iff ((∀ module ∈ program.modules.values, ∀ symbol ∈ module.symbols.values,
      symbol.Stored) ∧
      ∀ module ∈ program.modules.values, ∀ f ∈ module.functions.values, f.OperandTyped program)
    ⟨fun h => ⟨h.1, h.2⟩, fun h => ⟨h.stored, h.typed⟩⟩

/-- A typed program is typed as to its operands. -/
theorem Program.WellTyped.operandTyped {program : Program} (h : program.WellTyped) :
    program.OperandTyped :=
  ⟨h.stored, fun module hmodule f hf =>
    ⟨(h.typed module hmodule f hf).stored, (h.typed module hmodule f hf).checked⟩⟩

end Model

namespace Flat

open Model (Expr Stmt Symbol MathOp)

/-- The kind of the value that an instruction gives, if it gives one. What names a place gives the
value that is held there. -/
def Instruction.kind? : Instruction → Option Width
  | .register _ | .ram _ | .rom _ | .portIn _ | .element _ _ _ | .int _ => some .word
  | .bit _ | .bool _ | .compare _ _ _ _ => some .bit
  | .math _ width _ _ => some width
  | .call _ (some width) => some width
  | _ => none

/-- Whether an instruction names an array. -/
def Instruction.isBase : Instruction → Bool
  | .register _ | .ram _ | .rom _ => true
  | _ => false

/-- The value at an index is there and of a kind. -/
def Gives (look : Nat → Option Instruction) (r : Nat) (kind : Width) : Prop :=
  ∃ x, look r = some x ∧ x.kind? = some kind

/-- **The values that an instruction names are of the kinds that it works on.**  What a parameter is
passed to and what a call gives are looked up in the callee, and all other kinds in the code. -/
def Suits (ctx : Context) (look : Nat → Option Instruction) : Instruction → Prop
  | .branch _ condition _ => Gives look condition .bit
  | .compare _ width lhs rhs => Gives look lhs width ∧ Gives look rhs width
  | .math op width lhs none => op.isUnary = true ∧ width = mathWidth op ∧ Gives look lhs width
  | .math op width lhs (some rhs) =>
    op.isUnary = false ∧ width = mathWidth op ∧ Gives look lhs width ∧ Gives look rhs width
  | .assign change width target value =>
    Gives look value width ∧ change.all (MathOp.changes width) = true ∧
      ∃ place, look target = some place ∧ place.placeWidth? = some width
  | .call function (some width) => ∃ callee type, ctx.program.function function = .ok callee ∧
      callee.returns = some type ∧ width = resultWidth type
  | .parameter function name value => ∃ callee, ctx.program.function function = .ok callee ∧
      ∃ p ∈ callee.parameters, p.name = name ∧ Gives look value (resultWidth p.type)
  | .ret (some value) =>
    ∃ type, ctx.function.returns = some type ∧ Gives look value (resultWidth type)
  | .timer value => Gives look value .word
  | .element _ array index | .address array index =>
    Gives look index .word ∧ ∃ base, look array = some base ∧ base.isBase = true
  | _ => True

/-- What gives a value may stand between a value and its user. -/
theorem Instruction.isInner_of_kind? {x : Instruction} {kind : Width} (h : x.kind? = some kind) :
    x.isInner = true := by
  cases x with
  | call function result =>
      cases result with
      | none => cases h
      | some width => rfl
  | removed | marker | jump | branch | assign | parameter | ret | timer | level | halt | pause | reset
  | restart | nop => cases h
  | _ => rfl

theorem Instruction.isInner_of_placeWidth? {x : Instruction} {width : Width}
    (h : x.placeWidth? = some width) : x.isInner = true := by
  cases x with
  | register | bit | portOut | address => rfl
  | _ => cases h

theorem Instruction.isInner_of_isBase {x : Instruction} (h : x.isBase = true) : x.isInner = true := by
  cases x with
  | register | ram | rom => rfl
  | _ => cases h

/-- **What is found at the operands is all that matters.** -/
theorem Suits.of_operands {ctx : Context} {look look' : Nat → Option Instruction} {x : Instruction}
    (h : Suits ctx look x) (hlook : ∀ r ∈ x.operands, ∀ y, look r = some y → y.isInner = true →
      look' r = some y) : Suits ctx look' x := by
  have hgives : ∀ r ∈ x.operands, ∀ kind, Gives look r kind → Gives look' r kind := by
    rintro r hr kind ⟨y, hy, hkind⟩
    exact ⟨y, hlook r hr y hy (Instruction.isInner_of_kind? hkind), hkind⟩
  cases x with
  | branch expected condition target => exact hgives _ (by simp [Instruction.operands]) _ h
  | compare op width lhs rhs =>
      exact ⟨hgives _ (by simp [Instruction.operands]) _ h.1,
        hgives _ (by simp [Instruction.operands]) _ h.2⟩
  | math op width lhs rhs =>
      cases rhs with
      | none => exact ⟨h.1, h.2.1, hgives _ (by simp [Instruction.operands]) _ h.2.2⟩
      | some rhs =>
          exact ⟨h.1, h.2.1, hgives _ (by simp [Instruction.operands]) _ h.2.2.1,
            hgives _ (by simp [Instruction.operands]) _ h.2.2.2⟩
  | assign change width target value =>
      obtain ⟨hvalue, hchange, place, hplace, hwidth⟩ := h
      exact ⟨hgives _ (by simp [Instruction.operands]) _ hvalue, hchange, place,
        hlook _ (by simp [Instruction.operands]) _ hplace
          (Instruction.isInner_of_placeWidth? hwidth), hwidth⟩
  | call function result =>
      cases result with
      | none => trivial
      | some width => exact h
  | parameter function name value =>
      obtain ⟨callee, hcallee, p, hp, hname, hvalue⟩ := h
      exact ⟨callee, hcallee, p, hp, hname, hgives _ (by simp [Instruction.operands]) _ hvalue⟩
  | ret value =>
      cases value with
      | none => trivial
      | some value =>
          obtain ⟨type, htype, hvalue⟩ := h
          exact ⟨type, htype, hgives _ (by simp [Instruction.operands]) _ hvalue⟩
  | timer value => exact hgives _ (by simp [Instruction.operands]) _ h
  | element space array index | address array index =>
      obtain ⟨hindex, base, hbase, hisBase⟩ := h
      exact ⟨hgives _ (by simp [Instruction.operands]) _ hindex, base,
        hlook _ (by simp [Instruction.operands]) _ hbase
          (Instruction.isInner_of_isBase hisBase), hisBase⟩
  | _ => trivial

theorem Suits.retarget {ctx : Context} {look : Nat → Option Instruction} {x : Instruction}
    (h : Suits ctx look x) (target : Target) : Suits ctx look (x.retarget target) := by
  cases x with
  | branch => exact h
  | jump => trivial
  | _ => exact h

/-- What stands at an index, in code that starts at another. -/
def lookIn (start : Nat) (code : List Instruction) (r : Nat) : Option Instruction :=
  if start ≤ r then code[r - start]? else none

/-- The value of an evaluation is found behind what computes it. -/
theorem lookIn_ref (value : Evaluation) (start : Nat) :
    lookIn start value.code (value.ref start) = some value.result := by
  simp [lookIn, Evaluation.ref, Evaluation.code]

/-- What is found in a piece of code is found when more stands behind it. -/
theorem lookIn_append_left {start : Nat} {xs ys : List Instruction} {r : Nat} {x : Instruction}
    (h : lookIn start xs r = some x) : lookIn start (xs ++ ys) r = some x := by
  unfold lookIn at h ⊢
  split at h
  · rw [if_pos ‹_›, List.getElem?_append_left (List.getElem?_eq_some_iff.mp h).1]
    exact h
  · cases h

theorem lookIn_append_right {start : Nat} {xs ys : List Instruction} {r : Nat} {x : Instruction}
    (h : lookIn (start + xs.length) ys r = some x) : lookIn start (xs ++ ys) r = some x := by
  unfold lookIn at h ⊢
  split at h
  · rw [if_pos (by omega), List.getElem?_append_right (by omega)]
    rw [← h]
    congr 1
    omega
  · cases h

/-- A property of instructions by what they name, which stays when more can be looked up. -/
def Steady (P : (Nat → Option Instruction) → Instruction → Prop) : Prop :=
  ∀ look look' x, P look x → (∀ r y, look r = some y → look' r = some y) → P look' x

section Steady

variable {P : (Nat → Option Instruction) → Instruction → Prop} {start : Nat}
  {xs ys : List Instruction}

/-- What holds in two pieces of code holds in the one behind the other. -/
theorem Steady.append (hP : Steady P) (hx : ∀ x ∈ xs, P (lookIn start xs) x)
    (hy : ∀ y ∈ ys, P (lookIn (start + xs.length) ys) y) :
    ∀ z ∈ xs ++ ys, P (lookIn start (xs ++ ys)) z := by
  intro z hz
  rcases List.mem_append.mp hz with hz | hz
  · exact hP _ _ z (hx z hz) fun _ _ => lookIn_append_left
  · exact hP _ _ z (hy z hz) fun _ _ => lookIn_append_right

/-- So does what holds of users, where they look up what they name in the code before them. -/
theorem Steady.extend (hP : Steady P) (hx : ∀ x ∈ xs, P (lookIn start xs) x)
    (hy : ∀ y ∈ ys, P (lookIn start xs) y) : ∀ z ∈ xs ++ ys, P (lookIn start (xs ++ ys)) z := by
  intro z hz
  have hz : P (lookIn start xs) z := (List.mem_append.mp hz).elim (hx z) (hy z)
  exact hP _ _ z hz fun _ _ => lookIn_append_left

end Steady

theorem steady_suits (ctx : Context) : Steady (Suits ctx) :=
  fun _ _ _ h hlook => h.of_operands fun r _ y hy _ => hlook r y hy

/-- **Code of which all instructions suit.** -/
def Fits (ctx : Context) (start : Nat) (code : List Instruction) : Prop :=
  ∀ x ∈ code, Suits ctx (lookIn start code) x

namespace Fits

variable {ctx : Context} {start : Nat} {xs ys : List Instruction}

theorem nil : Fits ctx start [] := by
  intro x hx
  cases hx

theorem single {x : Instruction} (h : ∀ look, Suits ctx look x) : Fits ctx start [x] := by
  intro y hy
  rw [List.mem_singleton.mp hy]
  exact h _

/-- Pieces of code that fit, one after the other. -/
theorem append (hx : Fits ctx start xs) (hy : Fits ctx (start + xs.length) ys) :
    Fits ctx start (xs ++ ys) :=
  (steady_suits ctx).append hx hy

theorem extend (hx : Fits ctx start xs) (hy : ∀ y ∈ ys, Suits ctx (lookIn start xs) y) :
    Fits ctx start (xs ++ ys) :=
  (steady_suits ctx).extend hx hy

theorem snoc {x : Instruction} (hx : Fits ctx start xs) (h : Suits ctx (lookIn start xs) x) :
    Fits ctx start (xs ++ [x]) :=
  hx.extend fun y hy => by rwa [List.mem_singleton.mp hy]

end Fits

/-- What an evaluation gives is of a kind, and its code fits. -/
structure Evaluation.Typed (ctx : Context) (start : Nat) (e : Evaluation) (kind : Width) : Prop where
  width : e.width = kind
  result : e.result.kind? = some kind
  fits : Fits ctx start e.code

namespace Evaluation.Typed

variable {ctx : Context} {start : Nat} {value left right : Evaluation} {kind kind' : Width}

theorem gives (h : value.Typed ctx start kind) :
    Gives (lookIn start value.code) (value.ref start) kind :=
  ⟨_, lookIn_ref value start, h.result⟩

/-- Two values, one after the other. -/
theorem pair (hleft : left.Typed ctx start kind) (hright : right.Typed ctx (left.next start) kind') :
    Fits ctx start (left.code ++ right.code) ∧
      Gives (lookIn start (left.code ++ right.code)) (left.ref start) kind ∧
      Gives (lookIn start (left.code ++ right.code)) (right.ref (left.next start)) kind' := by
  have hnext := left.next_eq start
  refine ⟨hleft.fits.append (hnext ▸ hright.fits), ⟨_, ?_, hleft.result⟩, ⟨_, ?_, hright.result⟩⟩
  · exact lookIn_append_left (lookIn_ref left start)
  · apply lookIn_append_right
    rw [← hnext]
    exact lookIn_ref right _

end Evaluation.Typed

theorem typed_single {ctx : Context} {start : Nat} {x : Instruction} {kind : Width}
    (hkind : x.kind? = some kind) (hsuits : ∀ look, Suits ctx look x) :
    (Evaluation.single x kind).Typed ctx start kind :=
  ⟨rfl, hkind, .single hsuits⟩

theorem kind_of_bool {symbol : Symbol} (h : symbol.type = .bool) : symbol.kind = .bit :=
  if_pos (.inl h)

/-- What is in the bit file is a bit. -/
theorem kind_of_bit {symbol : Symbol} (h : symbol.storage = .bit) : symbol.kind = .bit :=
  if_pos (.inr h)

theorem kind_of_ne {symbol : Symbol} (htype : symbol.type ≠ .bool) (hstorage : symbol.storage ≠ .bit) :
    symbol.kind = .word :=
  if_neg (not_or.mpr ⟨htype, hstorage⟩)

/-- **The read of a symbol is of its kind**, if its storage fits its type. -/
theorem typed_readVar {ctx : Context} {start : Nat} {var : Var} {symbol : Symbol}
    (h : symbol.Stored) : (readVar var symbol).Typed ctx start symbol.kind := by
  unfold Symbol.Stored at h
  by_cases htype : symbol.type = .bool
  · rw [if_pos htype] at h
    rw [kind_of_bool htype, readVar]
    rcases h with hstorage | ⟨hstorage, harray⟩
    · rw [hstorage]
      exact typed_single rfl fun _ => trivial
    · simp only [hstorage, harray, literalOf, htype, Bool.false_eq_true, if_false]
      exact typed_single rfl fun _ => trivial
  · by_cases hbit : symbol.storage = .bit
    · rw [kind_of_bit hbit, readVar, hbit]
      exact typed_single rfl fun _ => trivial
    · rw [kind_of_ne htype hbit, readVar]
      cases hstorage : symbol.storage with
      | bit => exact absurd hstorage hbit
      | rom =>
          dsimp only
          split
          · exact typed_single rfl fun _ => trivial
          · unfold literalOf
            dsimp only
            split
            · exact absurd ‹_› htype
            · exact typed_single rfl fun _ => trivial
      | _ => exact typed_single rfl fun _ => trivial

theorem isBase_arrayBase? {var : Var} {symbol : Symbol} {array : Instruction} {space : Space}
    (h : arrayBase? var symbol = some (array, space)) : array.isBase = true := by
  unfold arrayBase? at h
  split at h
  all_goals cases h
  all_goals rfl

theorem isBase_writableBase? {var : Var} {symbol : Symbol} {array : Instruction}
    (h : writableBase? var symbol = some array) : array.isBase = true :=
  isBase_arrayBase? (arrayBase?_of_writableBase? h)

theorem suits_of_isBase {ctx : Context} {x : Instruction} (h : x.isBase = true)
    (look : Nat → Option Instruction) : Suits ctx look x := by
  cases x with
  | register | ram | rom => trivial
  | _ => cases h

/-- An array and an index behind it. -/
theorem fits_indexed {ctx : Context} {start : Nat} {array : Instruction} {index : Evaluation}
    (harray : array.isBase = true) (hindex : index.Typed ctx (start + 1) .word) :
    Fits ctx start (array :: index.code) ∧
      Gives (lookIn start (array :: index.code)) (index.ref (start + 1)) .word ∧
      ∃ base, lookIn start (array :: index.code) start = some base ∧ base.isBase = true := by
  have hbase : Fits ctx start [array] := .single (suits_of_isBase harray)
  refine ⟨hbase.append hindex.fits, ⟨_, ?_, hindex.result⟩, array, ?_, harray⟩
  · rw [← List.singleton_append]
    exact lookIn_append_right (lookIn_ref index _)
  · simp [lookIn]

section Expressions

variable {ctx : Context}

/-- The parameters of a call suit, if the arguments are of the kinds that it takes. -/
theorem suits_passing {look : Nat → Option Instruction} {label : String} {callee : Model.Function}
    {refs : List Nat} (hcallee : ctx.program.function label = .ok callee)
    (hrefs : List.Forall₂ (fun kind r => Gives look r kind) callee.kinds refs) :
    ∀ x ∈ passing label callee refs, Suits ctx look x := by
  intro x hx
  obtain ⟨⟨p, r⟩, hmem, rfl⟩ := List.mem_map.mp hx
  have hgives := List.forall₂_zip (List.forall₂_map_left_iff.mp hrefs) hmem
  exact ⟨callee, hcallee, p, (List.of_mem_zip hmem).1, rfl, hgives⟩

/-- The storage of every symbol that is seen fits its type. -/
def Context.Stored (ctx : Context) : Prop :=
  ∀ {label var symbol}, ctx.symbol label = .ok (var, symbol) → symbol.Stored

mutual

/-- **An expression is evaluated to a value of its kind.**  By recursion on the expression, with
lists of arguments; what is looked up in the callee was checked by `kind?`. -/
theorem typed_evaluate (hstored : ctx.Stored) :
    ∀ (e : Expr) {start : Nat} {out : Evaluation} {kind : Width}, Model.kind? ctx e = some kind →
      evaluate ctx start e = .ok out → out.Typed ctx start kind
  | .int value, start, out, kind, hkind, h => by
    cases hkind
    cases h
    exact typed_single rfl fun _ => trivial
  | .bool value, start, out, kind, hkind, h => by
    cases hkind
    cases h
    exact typed_single rfl fun _ => trivial
  | .var label, start, out, kind, hkind, h => by
    obtain ⟨⟨var, symbol⟩, hsymbol, h⟩ := bind_eq_ok.mp h
    cases h
    rw [Model.kind?, hsymbol] at hkind
    cases hkind
    exact typed_readVar (hstored hsymbol)
  | .index label index, start, out, kind, hkind, h => by
    obtain ⟨⟨var, symbol⟩, _, h⟩ := bind_eq_ok.mp h
    obtain ⟨⟨array, space⟩, harray, h⟩ := bind_eq_ok.mp h
    obtain ⟨value, hvalue, h⟩ := bind_eq_ok.mp h
    cases h
    rw [Model.kind?] at hkind
    split at hkind
    · rename_i hword
      cases hkind
      obtain ⟨hfits, hgives, hbase⟩ := fits_indexed (isBase_arrayBase? (orError_eq_ok.mp harray))
        (typed_evaluate hstored index hword hvalue)
      exact ⟨rfl, rfl, hfits.snoc ⟨hgives, hbase⟩⟩
    · cases hkind
  | .unary op operand, start, out, kind, hkind, h => by
    obtain ⟨value, hvalue, h⟩ := bind_eq_ok.mp h
    cases h
    rw [Model.kind?] at hkind
    split at hkind
    · rename_i hoperand
      cases hkind
      have hvalue := typed_evaluate hstored operand hoperand.2 hvalue
      exact ⟨rfl, rfl, hvalue.fits.snoc ⟨hoperand.1, rfl, hvalue.gives⟩⟩
    · cases hkind
  | .binary op lhs rhs, start, out, kind, hkind, h => by
    obtain ⟨left, hleft, h⟩ := bind_eq_ok.mp h
    obtain ⟨right, hright, h⟩ := bind_eq_ok.mp h
    cases h
    rw [Model.kind?] at hkind
    split at hkind
    · rename_i hoperands
      cases hkind
      obtain ⟨hfits, hgivesLeft, hgivesRight⟩ := (typed_evaluate hstored lhs hoperands.2.1 hleft).pair
        (typed_evaluate hstored rhs hoperands.2.2 hright)
      exact ⟨rfl, rfl, hfits.snoc ⟨hoperands.1, rfl, hgivesLeft, hgivesRight⟩⟩
    · cases hkind
  | .compare op lhs rhs, start, out, kind, hkind, h => by
    obtain ⟨left, hleft, h⟩ := bind_eq_ok.mp h
    obtain ⟨right, hright, h⟩ := bind_eq_ok.mp h
    cases h
    rw [Model.kind?] at hkind
    split at hkind
    · rename_i side hside
      split at hkind
      · rename_i hother
        cases hkind
        have hleft := typed_evaluate hstored lhs hside hleft
        obtain ⟨hfits, hgivesLeft, hgivesRight⟩ := hleft.pair (typed_evaluate hstored rhs hother hright)
        refine ⟨rfl, rfl, hfits.snoc ?_⟩
        rw [hleft.width]
        exact ⟨hgivesLeft, hgivesRight⟩
      · cases hkind
    · cases hkind
  | .call function arguments, start, out, kind, hkind, h => by
    obtain ⟨callee, hcallee, h⟩ := bind_eq_ok.mp h
    obtain ⟨⟨code, refs⟩, hcode, h⟩ := bind_eq_ok.mp h
    have hcallee := callee_eq_ok hcallee
    rw [Model.kind?, hcallee] at hkind
    dsimp only at hkind
    split at hkind
    · rename_i hkinds
      obtain ⟨hfits, hrefs⟩ := typed_evaluateAll hstored arguments hkinds hcode
      cases hreturns : callee.returns with
      | none =>
          rw [hreturns] at hkind
          cases hkind
      | some type =>
          rw [hreturns] at h hkind
          cases h
          cases hkind
          refine ⟨rfl, rfl, (hfits.extend (suits_passing hcallee hrefs)).snoc ?_⟩
          exact ⟨callee, type, hcallee, hreturns, rfl⟩
    · cases hkind

/-- Expressions are evaluated to values of their kinds. -/
theorem typed_evaluateAll (hstored : ctx.Stored) :
    ∀ (es : List Expr) {start : Nat} {code : List Instruction} {refs : List Nat}
      {kinds : List Width}, Model.kinds? ctx es = some kinds →
      evaluateAll ctx start es = .ok (code, refs) →
      Fits ctx start code ∧
        List.Forall₂ (fun kind r => Gives (lookIn start code) r kind) kinds refs
  | [], start, code, refs, kinds, hkinds, h => by
    cases hkinds
    cases h
    exact ⟨.nil, .nil⟩
  | e :: rest, start, code, refs, kinds, hkinds, h => by
    obtain ⟨value, hvalue, h⟩ := bind_eq_ok.mp h
    obtain ⟨⟨code', refs'⟩, hrest, h⟩ := bind_eq_ok.mp h
    cases h
    rw [Model.kinds?] at hkinds
    split at hkinds
    · rename_i kind kinds' hkind hkinds'
      cases hkinds
      have hvalue := typed_evaluate hstored e hkind hvalue
      obtain ⟨hfits, hrefs⟩ := typed_evaluateAll hstored rest hkinds' hrest
      rw [value.next_eq] at hfits hrefs
      refine ⟨hvalue.fits.append hfits, .cons ?_ (hrefs.imp ?_)⟩
      · obtain ⟨x, hx, hxkind⟩ := hvalue.gives
        exact ⟨x, lookIn_append_left hx, hxkind⟩
      · rintro kind r ⟨x, hx, hxkind⟩
        exact ⟨x, lookIn_append_right hx, hxkind⟩
    · cases hkinds

end

/-- A variable that is written is of the kind of its symbol. -/
theorem typed_writeVar? {start : Nat} {var : Var} {symbol : Symbol} {place : Evaluation}
    (hstored : symbol.Stored) (h : writeVar? var symbol = some place) :
    place.width = symbol.kind ∧ Fits ctx start place.code := by
  have htyped : (readVar var symbol).Typed ctx start symbol.kind := typed_readVar hstored
  have hread := htyped.width
  unfold writeVar? at h
  unfold readVar at hread
  cases hstorage : symbol.storage with
  | register | bit | port =>
      simp only [hstorage] at h hread
      cases h
      exact ⟨hread, .single fun _ => trivial⟩
  | ram | rom =>
      rw [hstorage] at h
      cases h

/-- **The target of an assignment is a place of its kind.** -/
theorem typed_evaluatePlace (hstored : ctx.Stored) {e : Expr} {start : Nat} {out : Evaluation}
    {kind : Width} (hkind : Model.kind? ctx e = some kind)
    (h : evaluatePlace ctx start e = .ok out) : out.width = kind ∧ Fits ctx start out.code := by
  unfold evaluatePlace at h
  split at h
  · obtain ⟨⟨var, symbol⟩, hsymbol, h⟩ := bind_eq_ok.mp h
    rw [Model.kind?, hsymbol] at hkind
    cases hkind
    exact typed_writeVar? (hstored hsymbol) (orError_eq_ok.mp h)
  · obtain ⟨⟨var, symbol⟩, _, h⟩ := bind_eq_ok.mp h
    obtain ⟨array, harray, h⟩ := bind_eq_ok.mp h
    obtain ⟨value, hvalue, h⟩ := bind_eq_ok.mp h
    cases h
    rw [Model.kind?] at hkind
    split at hkind
    · rename_i hword
      cases hkind
      obtain ⟨hfits, hgives, hbase⟩ := fits_indexed (isBase_writableBase? (orError_eq_ok.mp harray))
        (typed_evaluate hstored _ hword hvalue)
      exact ⟨rfl, hfits.snoc ⟨hgives, hbase⟩⟩
    · cases hkind
  · cases h

/-- A condition without a leading *not* is still one. -/
theorem kind?_polarity {condition : Expr} (h : Model.kind? ctx condition = some .bit) :
    Model.kind? ctx (polarity condition).1 = some .bit := by
  unfold polarity
  split
  · rename_i operand
    rw [Model.kind?] at h
    split at h
    · rename_i hoperand
      exact hoperand.2
    · cases h
  · exact h

/-- **The code of a typed simple statement fits.** -/
theorem fits_simpleCode (hstored : ctx.Stored) {stmt : Stmt} {start : Nat} {code : List Instruction}
    (hchecks : Model.checks ctx stmt = true) (h : simpleCode ctx start stmt = .ok code) :
    Fits ctx start code := by
  cases stmt with
  | assign target op value =>
      obtain ⟨source, hsource, h⟩ := bind_eq_ok.mp h
      obtain ⟨place, hplace, h⟩ := bind_eq_ok.mp h
      cases h
      rw [Model.checks] at hchecks
      split at hchecks
      · rename_i kind htarget
        obtain ⟨hvalue, hop⟩ := Bool.and_eq_true_iff.mp hchecks
        have hsource := typed_evaluate hstored value (of_decide_eq_true hvalue) hsource
        have hwidth := placeWidth?_evaluatePlace hplace
        obtain ⟨rfl, hfits⟩ := typed_evaluatePlace hstored htarget hplace
        rw [source.next_eq] at hfits hplace ⊢
        refine (hsource.fits.append hfits).snoc ⟨?_, hop, place.result, ?_, hwidth⟩
        · exact ⟨_, lookIn_append_left (lookIn_ref source start), hsource.result⟩
        · exact lookIn_append_right (lookIn_ref place _)
      · cases hchecks
  | call function arguments =>
      obtain ⟨callee, hcallee, h⟩ := bind_eq_ok.mp h
      obtain ⟨⟨code', refs⟩, hcode, h⟩ := bind_eq_ok.mp h
      cases h
      have hcallee := callee_eq_ok hcallee
      rw [Model.checks, hcallee] at hchecks
      obtain ⟨hfits, hrefs⟩ := typed_evaluateAll hstored arguments (of_decide_eq_true hchecks) hcode
      exact (hfits.extend (suits_passing hcallee hrefs)).snoc trivial
  | ret value =>
      cases value with
      | none =>
          cases h
          exact .single fun _ => trivial
      | some value =>
          obtain ⟨value', hvalue, h⟩ := bind_eq_ok.mp h
          cases h
          rw [Model.checks] at hchecks
          split at hchecks
          · rename_i type hreturns
            have hvalue := typed_evaluate hstored value (of_decide_eq_true hchecks) hvalue
            exact hvalue.fits.snoc ⟨type, hreturns, hvalue.gives⟩
          · cases hchecks
  | timer value =>
      obtain ⟨value', hvalue, h⟩ := bind_eq_ok.mp h
      cases h
      have hvalue := typed_evaluate hstored value (of_decide_eq_true hchecks) hvalue
      exact hvalue.fits.snoc hvalue.gives
  | level | halt | pause | reset | restart | nop =>
      cases h
      exact .single fun _ => trivial
  | block | branch | loop | breakLoop | continueLoop =>
      cases h
      exact .nil

/-- **The flat code of a typed function fits.**  Operands of an instruction come from its own piece,
so it is enough to look at the pieces. -/
theorem Pieces.fits (hstored : ctx.Stored) {stmts : List Stmt} {start : Nat}
    {code : List Instruction} (h : Pieces ctx stmts start code)
    (hchecks : ∀ stmt ∈ stmts, Model.checks ctx stmt = true) : Fits ctx start code := by
  induction h with
  | nil => exact .nil
  | cons hpiece _ ih =>
      refine Fits.append ?_ ih
      cases hpiece with
      | marker | jump | ending => exact .single fun _ => trivial
      | test expected target hmem hvalue =>
          have hcondition := kind?_polarity (of_decide_eq_true (hchecks _ hmem))
          have hvalue := typed_evaluate hstored _ hcondition hvalue
          exact hvalue.fits.snoc hvalue.gives
      | simple hmem _ hcode => exact fits_simpleCode hstored (hchecks _ hmem) hcode

end Expressions

/-- In a typed program the storage of every symbol that a function sees fits its type. -/
theorem Context.stored_of_operandTyped {program : Model.Program} {module : Model.Module}
    {f : Model.Function} (h : program.OperandTyped) (hmodule : module ∈ program.modules.values)
    (hf : f ∈ module.functions.values) : Context.Stored ⟨program, f⟩ := by
  intro label var symbol hsymbol
  rcases symbol_cases hsymbol with ⟨own, _, hfind⟩ | ⟨name, own, _, hglobal⟩
  · refine (h.typed module hmodule f hf).stored symbol ?_
    exact List.mem_map.mpr ⟨(own, symbol), Table.find?_eq_some.mp hfind, rfl⟩
  · obtain ⟨module', hmodule', hfind⟩ := Option.bind_eq_some_iff.mp hglobal
    refine h.stored module' ?_ symbol ?_
    · exact List.mem_map.mpr ⟨(name, module'), Table.find?_eq_some.mp hmodule', rfl⟩
    · exact List.mem_map.mpr ⟨(own, symbol), Table.find?_eq_some.mp hfind, rfl⟩

end Flat

/-- **The flat body of a function fits**, in a program that is typed as to its operands. -/
theorem Lineage.fits {model : Model.Program} {label : String} {simple : Flat.Function}
    (l : Lineage model label simple) (h : model.OperandTyped) :
    Flat.Fits ⟨model, l.origin⟩ 0 l.code := by
  obtain ⟨module, hmodule, horigin⟩ := l.mem
  exact l.pieces.fits (Flat.Context.stored_of_operandTyped h hmodule horigin)
    (h.typed module hmodule l.origin horigin).checked

end Stackless
