import Stackless.Proofs.GlobalsApart
import Stackless.Proofs.Typing

/-!
# Allocation finds no fault in the instructions

Each phase decides by itself which symbols have an address.  Flattening emits instructions for
symbols by their kind of storage; constants that are arrays, variables, and locals are placed by
three different rules.  The rules agree, but for one case: an index may be put on a constant that
is no array, and such a constant is placed nowhere.

* `Storage.Consistent` — what a frame needs of a body and the addresses that are known;
* `Storage.Consistent.frame` — a function whose body is consistent gets its frame;
* `Lineage.consistent` — the body of a simplified function is consistent with its own symbols
  and all globals, if it puts an index on arrays only;
* `allocation_finds_no_fault` — so an allocation reports no fault of an instruction.

`scalar_with_index` is a program for which it does.
-/

namespace Stackless

open Flat (Op Instruction Offset File Width Var Context Evaluation Function codeOf)
open Model (Symbol Expr Stmt)

namespace Model

/-- A label means no constant, or one that is an array. -/
def Program.MeansArray (program : Program) (f : Function) (label : String) : Prop :=
  match program.symbol f label with
  | .ok (_, symbol) => symbol.storage = .rom → symbol.isArray = true
  | .error _ => True

instance (program : Program) (f : Function) (label : String) : Decidable (program.MeansArray f label) := by
  unfold Program.MeansArray
  split <;> infer_instance

/-- No expression puts an index on a constant that is no array. -/
def Program.IndexesArrays (program : Program) : Prop :=
  ∀ module ∈ program.modules.values, ∀ f ∈ module.functions.values, ∀ stmt ∈ f.statements,
    ∀ label ∈ stmt.indexed, program.MeansArray f label

instance (program : Program) : Decidable program.IndexesArrays :=
  inferInstanceAs (Decidable (∀ module ∈ program.modules.values, ∀ f ∈ module.functions.values,
    ∀ stmt ∈ f.statements, ∀ label ∈ stmt.indexed, program.MeansArray f label))

end Model

namespace Flat

variable {ctx : Context}

/-- A constant whose address the instruction takes is an array, or an index is put on it. -/
def FromArray (ctx : Context) (indexed : List String) (x : Instruction) : Prop :=
  ∀ var, x = .rom var → ∃ name symbol, ctx.symbol name = .ok (var, symbol) ∧
    symbol.storage = .rom ∧ (symbol.isArray = true ∨ name ∈ indexed)

/-- Constants are arrays wherever names are read, written or indexed. -/
theorem nameWise_fromArray (ctx : Context) (indexed : List String) :
    NameWise ctx indexed (FromArray ctx indexed) where
  plain := by
    rintro x hnone _ var rfl
    cases hnone
  call := nofun
  read := fun name var symbol h var' heq => by
    unfold readVar at heq
    split at heq
    all_goals try cases heq
    rename_i hstorage
    split at heq
    · cases heq
      exact ⟨name, symbol, h, hstorage, .inl ‹_›⟩
    · unfold literalOf at heq
      split at heq
      all_goals cases heq
  write := fun name var symbol place _ hwrite var' heq => by
    unfold writeVar? at hwrite
    split at hwrite
    all_goals cases hwrite
    all_goals cases heq
  base := fun name hname var symbol x h hstorage var' heq => by
    rw [heq] at hstorage
    obtain ⟨rfl, hrom⟩ := Prod.mk.inj (Option.some.inj hstorage)
    exact ⟨name, symbol, h, hrom.symm, .inr hname⟩

end Flat

namespace Storage

/-- What a frame needs of a body, and of the addresses that are known, so that no op of the body is
at fault when slots are given out. -/
structure Consistent (scope : Scope) (body : List Op) : Prop where
  linear : Linear body
  /-- Every jump knows where it goes. -/
  resolved : ∀ (i : Nat) (x : Instruction) target, (codeOf body)[i]? = some x →
    x.target? = some target → ∃ index, target.index = some index
  /-- Assignments go to places. -/
  place : ∀ (j : Nat) change width t v, (codeOf body)[j]? = some (.assign change width t v) →
    ∃ x, (codeOf body)[t]? = some x ∧ x.placeWidth? = some width
  /-- Variables in the files have offsets. -/
  inFile : ∀ (i : Nat) (x : Instruction) var storage file, (codeOf body)[i]? = some x →
    x.storage? = some (var, storage) → fileOf? storage = some file →
    ∃ offset, scope.find? var = some offset
  /-- All others are globals with addresses. -/
  elsewhere : ∀ (i : Nat) (x : Instruction) var storage, (codeOf body)[i]? = some x →
    x.storage? = some (var, storage) → fileOf? storage = none →
    ∃ label address, var = .globalVar label ∧ scope.globals.find? label = some address

/-- A chain succeeds if its first step does and the rest does with that step's value. -/
theorem exists_bind_ok {ε α β : Type} {x : Except ε α} {f : α → Except ε β} {a : α}
    (hx : x = .ok a) (h : ∃ b, f a = .ok b) : ∃ b, (x >>= f) = .ok b := by
  obtain ⟨b, hb⟩ := h
  exact ⟨b, bind_eq_ok.mpr ⟨a, hx, hb⟩⟩

/-- **A step over the first numbers succeeds** if it does from every state that is reached. -/
theorem foldlM_range_ok {ε σ : Type} {step : σ → Nat → Except ε σ} {P : Nat → σ → Prop}
    {start : σ} (hzero : P 0 start) {n : Nat}
    (hstep : ∀ k state, k < n → P k state → ∃ next, step state k = .ok next ∧ P (k + 1) next) :
    ∃ out, (List.range n).foldlM step start = .ok out ∧ P n out := by
  induction n with
  | zero => exact ⟨start, rfl, hzero⟩
  | succ n ih =>
      obtain ⟨state, hstate, hP⟩ := ih fun k state hk => hstep k state (Nat.lt_succ_of_lt hk)
      obtain ⟨next, hnext, hP⟩ := hstep n state (Nat.lt_succ_self n) hP
      refine ⟨next, ?_, hP⟩
      rw [List.range_succ, List.foldlM_append, hstate]
      show (step state n >>= fun state => pure state) = .ok next
      exact bind_eq_ok.mpr ⟨next, hnext, rfl⟩

theorem instructionAt_of_codeOf {body : List Op} {index : Nat} {x : Instruction}
    (h : (codeOf body)[index]? = some x) : instructionAt body index = .ok x := by
  obtain ⟨op, hop, rfl⟩ := Flat.exists_of_codeOf_getElem? h
  rw [instructionAt, hop]
  rfl

/-- While ports are read straight into variables, no op is lost. -/
theorem PortsPassed.exists_op {scope : Scope} {before body : List Op} {n : Nat} {passed : List Nat}
    (h : PortsPassed scope before n body passed) {i : Nat} {op : Op} (hop : before[i]? = some op) :
    ∃ op', body[i]? = some op' := by
  by_cases huntouched : ∀ u t v var, u < n → ReadsPort before u t v var → i ≠ u ∧ i ≠ t ∧ i ≠ v
  · exact ⟨op, (h.same i huntouched).trans hop⟩
  · push Not at huntouched
    obtain ⟨u, t, v, var, hu, hreads, htouched⟩ := huntouched
    obtain ⟨hatu, hatt, offset, _, hatv⟩ := h.gone u t v var hu hreads
    by_cases hiu : i = u
    · exact ⟨_, by rw [hiu, hatu, ← hiu, hop]; rfl⟩
    · by_cases hit : i = t
      · exact ⟨_, by rw [hit, hatt, ← hit, hop]; rfl⟩
      · have hiv := htouched hiu hit
        exact ⟨_, by rw [hiv, hatv, ← hiv, hop]; rfl⟩

/-- Indices that are there can be tested. -/
theorem exists_keep_ok (out : List Op) (test : Instruction → Bool) :
    ∀ {refs : List Nat}, (∀ r ∈ refs, ∃ y, (codeOf out)[r]? = some y) →
      ∃ kept, keep out test refs = .ok kept
  | [], _ => ⟨[], rfl⟩
  | r :: rest, hrefs => by
    obtain ⟨y, hy⟩ := hrefs r List.mem_cons_self
    obtain ⟨kept, hkept⟩ := exists_keep_ok out test fun r hr => hrefs r (List.mem_cons_of_mem _ hr)
    exact exists_bind_ok (instructionAt_of_codeOf hy) (exists_bind_ok hkept ⟨_, rfl⟩)

namespace Consistent

variable {scope : Scope} {body : List Op} (h : Consistent scope body)

include h

/-- Operands are found, also after ports were read straight into variables. -/
theorem operand {out : List Op} {n : Nat} {passed : List Nat}
    (hports : PortsPassed scope body n out passed) {i r : Nat} {x : Instruction}
    (hx : (codeOf out)[i]? = some x) (hr : r ∈ x.operands) : ∃ y, (codeOf out)[r]? = some y := by
  have hlive : x ≠ .removed := by
    rintro rfl
    cases hr
  have hx := hports.of_live hx hlive
  have hlt := h.linear.lt i x hx r hr
  have hlength : r < body.length := by
    have := (List.getElem?_eq_some_iff.mp hx).1
    rw [Flat.length_codeOf] at this
    omega
  obtain ⟨op, hop⟩ := hports.exists_op (List.getElem?_eq_getElem hlength)
  exact ⟨op.instruction, Flat.codeOf_getElem? hop⟩

/-- A variable of a file that is there after ports were read has its offset. -/
theorem var_ok {out : List Op} {n : Nat} {passed : List Nat}
    (hports : PortsPassed scope body n out passed) (index : Nat) {i : Nat} {x : Instruction}
    {var : Var} {storage : Model.Storage} {file : File} (hx : (codeOf out)[i]? = some x)
    (hstorage : x.storage? = some (var, storage)) (hfile : fileOf? storage = some file) :
    ∃ offset, scope.var out index var = .ok offset := by
  have hlive : x ≠ .removed := by
    rintro rfl
    cases hstorage
  obtain ⟨offset, hfind⟩ := h.inFile i x var storage file (hports.of_live hx hlive) hstorage hfile
  exact ⟨offset, Scope.var_eq_ok.mpr hfind⟩

/-- What is in no file has its address. -/
theorem global_ok {out : List Op} {n : Nat} {passed : List Nat}
    (hports : PortsPassed scope body n out passed) (index : Nat) {i : Nat} {x : Instruction}
    {var : Var} {storage : Model.Storage} (hx : (codeOf out)[i]? = some x)
    (hstorage : x.storage? = some (var, storage)) (hfile : fileOf? storage = none) :
    ∃ address, scope.global out index var = .ok address := by
  have hlive : x ≠ .removed := by
    rintro rfl
    cases hstorage
  obtain ⟨label, address, rfl, hfind⟩ :=
    h.elsewhere i x var storage (hports.of_live hx hlive) hstorage hfile
  exact ⟨address, Scope.global_eq_ok.mpr ⟨label, rfl, hfind⟩⟩

/-- **Ports can be read straight into variables.** -/
theorem passPorts : ∃ out passed, Storage.passPorts scope body = .ok (out, passed) ∧
    PortsPassed scope body body.length out passed := by
  have hrun : ∃ state : List Op × List Nat, Storage.passPorts scope body = .ok state ∧
      PortsPassed scope body body.length state.1 state.2 := by
    refine foldlM_range_ok (P := fun n (state : List Op × List Nat) => PortsPassed scope body n state.1 state.2)
      (PortsPassed.start scope body) fun n state hn hports => ?_
    obtain ⟨out, passed⟩ := state
    suffices hok : ∃ next, passPort scope out passed n = .ok next by
      obtain ⟨next, hnext⟩ := hok
      exact ⟨next, hnext, hports.step h.linear hnext⟩
    obtain ⟨op, hop⟩ := hports.exists_op (List.getElem?_eq_getElem hn)
    have hx := Flat.codeOf_getElem? hop
    refine exists_bind_ok (instructionAt_of_codeOf hx) ?_
    split
    · rename_i target value hassign
      rw [hassign] at hx
      obtain ⟨place, hplace⟩ := h.operand hports hx (r := target) List.mem_cons_self
      obtain ⟨source, hsource⟩ := h.operand hports hx (r := value)
        (List.mem_cons_of_mem _ (List.mem_singleton_self _))
      refine exists_bind_ok (instructionAt_of_codeOf hplace) ?_
      refine exists_bind_ok (instructionAt_of_codeOf hsource) ?_
      split
      · obtain ⟨offset, hoffset⟩ := h.var_ok hports target hplace rfl rfl
        exact exists_bind_ok hoffset ⟨_, rfl⟩
      · exact ⟨_, rfl⟩
    · exact ⟨_, rfl⟩
  obtain ⟨⟨out, passed⟩, hrun⟩ := hrun
  exact ⟨out, passed, hrun⟩

section Visiting

variable {out : List Op} {passed : List Nat} (hports : PortsPassed scope body body.length out passed)

include hports

/-- The literals that need a slot are found. -/
theorem materialized_ok : ∃ literals, materialized out = .ok literals := by
  suffices hall : ∃ literals, out.mapM (fun op => literalsOf out op.instruction) = .ok literals by
    obtain ⟨literals, hliterals⟩ := hall
    exact exists_bind_ok hliterals ⟨_, rfl⟩
  refine exists_mapM_ok fun op hop => ?_
  obtain ⟨i, hi⟩ := List.mem_iff_getElem?.mp hop
  have hoperand : ∀ r ∈ op.instruction.operands, ∃ y, (codeOf out)[r]? = some y :=
    fun r => h.operand hports (Flat.codeOf_getElem? hi)
  unfold literalsOf
  split
  · rename_i lhs _ hinstr
    refine exists_keep_ok out isInt fun r hr => hoperand r ?_
    rw [List.mem_singleton.mp hr, hinstr]
    exact List.mem_cons_self
  · exact exists_keep_ok out isBool hoperand
  · exact exists_keep_ok out isBool hoperand
  · exact exists_keep_ok out isBool hoperand
  · rename_i value hinstr
    refine exists_keep_ok out isBool fun r hr => hoperand r ?_
    rw [List.mem_singleton.mp hr, hinstr]
    exact List.mem_cons_of_mem _ (List.mem_singleton_self _)
  · exact ⟨[], rfl⟩

/-- A jump that is left knows where it goes. -/
theorem target_ok {literals : List Nat} {i : Nat} {x : Instruction} {target : Flat.Target}
    (hx : (codeOf out)[i]? = some x) (htarget : x.target? = some target) :
    ({ scope, body := out, passed, literals } : Visit).checkTarget i target = .ok () := by
  have hlive : x ≠ .removed := by
    rintro rfl
    cases htarget
  obtain ⟨index, hindex⟩ := h.resolved i x target (hports.of_live hx hlive) htarget
  rw [Visit.checkTarget, hindex]

/-- An assignment that is left goes to a place: only the places of assignments that are gone are
gone. -/
theorem place_ok {literals : List Nat} {j t v : Nat} {change : Option Model.MathOp} {width : Width}
    (hx : (codeOf out)[j]? = some (.assign change width t v)) :
    ({ scope, body := out, passed, literals } : Visit).checkPlace j t = .ok () := by
  have hassign := hports.of_live hx nofun
  obtain ⟨place, hplace, hwidth⟩ := h.place j change width t v hassign
  have hsame : out[t]? = body[t]? := by
    refine hports.same t fun u t' v' var hu hreads => ?_
    have hother : ∀ r, r = t' ∨ r = v' → t ≠ r := by
      rintro r hr rfl
      have hmem : t ∈ (Instruction.assign none .word t' v').operands := by
        rcases hr with rfl | rfl
        · exact List.mem_cons_self
        · exact List.mem_cons_of_mem _ (List.mem_singleton_self _)
      have hju := h.linear.once j u _ _ t hassign hreads.assign List.mem_cons_self hmem
      subst hju
      obtain ⟨hgone, _⟩ := hports.gone j t' v' var hu hreads
      obtain ⟨op, hop, hinstr⟩ := Flat.exists_of_codeOf_getElem? hx
      obtain ⟨old, hold, _⟩ := Flat.exists_of_codeOf_getElem? hassign
      rw [hold, hop] at hgone
      rw [Option.some.inj hgone] at hinstr
      cases hinstr
    refine ⟨?_, hother t' (.inl rfl), hother v' (.inr rfl)⟩
    rintro rfl
    rw [hreads.assign] at hplace
    cases hplace
    cases hwidth
  have hplace : (codeOf out)[t]? = some place := by
    obtain ⟨op, hop, rfl⟩ := Flat.exists_of_codeOf_getElem? hplace
    exact Flat.codeOf_getElem? (hsame.trans hop)
  refine bind_eq_ok.mpr ⟨place, instructionAt_of_codeOf hplace, ?_⟩
  cases place with
  | register | bit | portOut | address => rfl
  | _ => cases hwidth

/-- A comparison gets its slot, or the offset of the variable that it is copied to. -/
theorem comparison_ok {literals : List Nat} (pools : Pools) (i last : Nat) :
    ∃ next, ({ scope, body := out, passed, literals } : Visit).comparison pools i last = .ok next := by
  unfold Visit.comparison
  split
  · exact ⟨_, rfl⟩
  · suffices hcopy : ∃ copied, copyTarget? out i last = .ok copied by
      obtain ⟨copied, hcopied⟩ := hcopy
      refine exists_bind_ok hcopied ?_
      cases copied with
      | none => exact ⟨_, rfl⟩
      | some var =>
          obtain ⟨target, _, htarget⟩ := copyTarget?_bit hcopied
          obtain ⟨offset, hoffset⟩ := h.var_ok hports i htarget rfl rfl
          exact exists_bind_ok hoffset ⟨_, rfl⟩
    unfold copyTarget?
    split
    · rename_i op hop
      split
      · rename_i target value hinstr
        split
        · obtain ⟨place, hplace⟩ := h.operand hports (Flat.codeOf_getElem? hop) (r := target)
            (by rw [hinstr]; exact List.mem_cons_self)
          refine exists_bind_ok (instructionAt_of_codeOf hplace) ?_
          split
          · exact ⟨_, rfl⟩
          · exact ⟨_, rfl⟩
        · exact ⟨_, rfl⟩
      · exact ⟨_, rfl⟩
    · exact ⟨_, rfl⟩

/-- **Every op gets its offset.**  A consistent body has none of the faults that a visit looks for,
as each field of `Consistent` excludes one of them. -/
theorem offset_ok (literals : List Nat) {i : Nat} {x : Instruction} (hx : (codeOf out)[i]? = some x)
    (pools : Pools) (last : Nat) :
    ∃ next, ({ scope, body := out, passed, literals } : Visit).offset pools i last x = .ok next := by
  cases x with
  | jump target => exact exists_bind_ok (h.target_ok hports hx rfl) ⟨_, rfl⟩
  | branch expected value target => exact exists_bind_ok (h.target_ok hports hx rfl) ⟨_, rfl⟩
  | assign change width t v => exact exists_bind_ok (h.place_ok hports hx) ⟨_, rfl⟩
  | register var | bit var =>
      obtain ⟨offset, hoffset⟩ := h.var_ok hports i hx rfl rfl
      exact exists_bind_ok hoffset ⟨_, rfl⟩
  | ram var | rom var | portOut var =>
      obtain ⟨address, haddress⟩ := h.global_ok hports i hx rfl rfl
      exact exists_bind_ok haddress ⟨_, rfl⟩
  | portIn var =>
      unfold Visit.offset
      dsimp only
      split
      · exact ⟨_, rfl⟩
      · obtain ⟨address, haddress⟩ := h.global_ok hports i hx rfl rfl
        exact exists_bind_ok haddress ⟨_, rfl⟩
  | compare test width lhs rhs => exact h.comparison_ok hports pools i last
  | call function result =>
      cases result with
      | none => exact ⟨_, rfl⟩
      | some width => exact ⟨_, rfl⟩
  | _ => exact ⟨_, rfl⟩

end Visiting

end Consistent

/-- A visit succeeds if every op gets its offset. -/
theorem Visit.exists_ops_ok (v : Visit) :
    ∀ (ops : List Op) (index : Nat) (pools : Pools),
      (∀ (n : Nat) op, ops[n]? = some op → ∀ pools last,
        ∃ next, v.offset pools (index + n) last op.instruction = .ok next) →
      ∃ out, v.ops pools index ops = .ok out
  | [], _, pools, _ => ⟨([], pools), rfl⟩
  | op :: rest, index, pools, h => by
    obtain ⟨⟨offset, next⟩, hoffset⟩ := h 0 op rfl pools (op.lastUse.getD index)
    obtain ⟨out, hout⟩ := exists_ops_ok v rest (index + 1) next fun n op' hop' pools last => by
      rw [Nat.add_right_comm]
      exact h (n + 1) op' hop' pools last
    exact exists_bind_ok hoffset (exists_bind_ok hout ⟨_, rfl⟩)

/-- **A function with a consistent body gets its frame**, if its locals can be pinned. -/
theorem Consistent.frame {globals : Table Nat} {source : Model.Function} {f : Function}
    {pools : Pools} {locals : Table Offset}
    (hpin : pinLocals {} f.locals source.symbols.entries = .ok (pools, locals))
    (h : Consistent
      { label := f.label, globals, locals := (pinResult pools locals source.returns).2 } f.body) :
    ∃ g, Storage.frame globals source f = .ok g := by
  obtain ⟨out, passed, hpass, hports⟩ := h.passPorts
  obtain ⟨literals, hliterals⟩ := h.materialized_ok hports
  obtain ⟨visited, hvisited⟩ := Visit.exists_ops_ok
    { scope := { label := f.label, globals, locals := (pinResult pools locals source.returns).2 }
      body := out, passed, literals }
    out 0 (pinResult pools locals source.returns).1 fun n op hop pools last => by
      rw [Nat.zero_add]
      exact h.offset_ok hports literals (Flat.codeOf_getElem? hop) pools last
  exact exists_bind_ok hpin (exists_bind_ok hpass (exists_bind_ok hliterals
    (exists_bind_ok hvisited ⟨_, rfl⟩)))

/-- Every global is one of the globals of the program. -/
theorem mem_globals {model : Model.Program} {module name : String} {symbol : Symbol}
    (h : model.global? module name = some symbol) : (Model.qualify module name, symbol) ∈ globals model :=
  mem_globals_of_placed (show _ ∈ placedGlobals model default from mem_placedGlobals h)

/-- Arrays of constants have addresses when they are placed. -/
theorem find?_constants {label : String} :
    ∀ {arrays : List (String × Symbol)} {start out : Constants},
      arrays.foldlM (fun c g => c.place g.1 g.2) start = .ok out →
      ((∃ symbol, (label, symbol) ∈ arrays) ∨ ∃ address, start.addresses.find? label = some address) →
      ∃ address, out.addresses.find? label = some address
  | [], start, out, h, hlabel => by
    cases h
    exact hlabel.resolve_left nofun
  | g :: rest, start, out, h, hlabel => by
    obtain ⟨next, hnext, h⟩ := bind_eq_ok.mp h
    obtain ⟨used, _, hnext⟩ := bind_eq_ok.mp hnext
    cases hnext
    refine find?_constants h ?_
    by_cases hsame : label = g.1
    · refine .inr ⟨start.used, ?_⟩
      rw [Table.find?_insert, if_pos hsame]
    · refine hlabel.imp (fun ⟨symbol, hmem⟩ => ?_) fun ⟨address, hfind⟩ => ?_
      · refine ⟨symbol, (List.mem_cons.mp hmem).resolve_left ?_⟩
        rintro rfl
        exact hsame rfl
      · refine ⟨address, ?_⟩
        rw [Table.find?_insert, if_neg hsame]
        exact hfind

/-- **Every global has an address, constants that are no arrays apart.** -/
theorem exists_address {model : Model.Program} {forest : Calls.Forest} {constants : Constants}
    {cursors : Cursors} (hconstants : placeConstants model = .ok constants)
    (hcursors : placeVariables model forest constants.addresses = .ok cursors)
    {module name : String} {symbol : Symbol} (h : model.global? module name = some symbol)
    (hrom : symbol.storage = .rom → symbol.isArray = true) :
    ∃ address, cursors.addresses.find? (Model.qualify module name) = some address := by
  have hplaced := placeAll_of_placeVariables hcursors
  by_cases hvariable : ∃ other, (Model.qualify module name, other) ∈ placedGlobals model forest ∧
      other.storage ≠ .rom
  · obtain ⟨_, _, _, _, _, _, _, hfind⟩ := exists_given hplaced hvariable
    exact ⟨_, hfind⟩
  · have hconstant : symbol.storage = .rom := by
      by_contra hne
      exact hvariable ⟨symbol, mem_placedGlobals h, hne⟩
    have harray : isConstantArray symbol = true := by
      rw [isConstantArray, hconstant, hrom hconstant]
      rfl
    rw [find?_placeAll_of_not hplaced fun g hg hlabel => by
      by_contra hne
      exact hvariable ⟨g.2, hlabel ▸ hg, hne⟩]
    obtain ⟨out, hout, hfits⟩ := bind_eq_ok.mp hconstants
    obtain ⟨address, hfind⟩ := find?_constants hout (.inl ⟨symbol,
      List.mem_filter.mpr ⟨mem_globals h, harray⟩⟩)
    dsimp only at hfits
    split at hfits
    · cases hfits
      exact ⟨address, hfind⟩
    · cases hfits

/-- Locals that can be pinned are single, and registers, bits or constants. -/
theorem count_of_pinLocals :
    ∀ {entries : List (String × Symbol)} {pools pools' : Pools} {locals locals' : Table Offset},
      pinLocals pools locals entries = .ok (pools', locals') → ∀ e ∈ entries, e.2.count = 1
  | [], _, _, _, _, _, e, he => by cases he
  | (name, symbol) :: rest, pools, pools', locals, locals', h, e, he => by
    rw [pinLocals] at h
    split at h
    all_goals try cases h
    all_goals
      rename_i hcount
      rcases List.mem_cons.mp he with rfl | he
      · exact of_decide_eq_true hcount
      · exact count_of_pinLocals h e he

/-- Pinning the result leaves every name its slot. -/
theorem find?_pinResult {pools : Pools} {locals : Table Offset} {name : String} {offset : Offset}
    (h : locals.find? name = some offset) (returns : Option Model.ValueType) :
    ∃ offset', (pinResult pools locals returns).2.find? name = some offset' := by
  cases returns with
  | none => exact ⟨offset, h⟩
  | some type =>
      show ∃ offset', (locals.insert resultName _).find? name = some offset'
      rw [Table.find?_insert]
      split
      · exact ⟨_, rfl⟩
      · exact ⟨offset, h⟩

/-- Locals are pinned, or one of them is of no kind that a function can have. -/
theorem unsupported_of_pinLocals :
    ∀ {entries : List (String × Symbol)} {pools : Pools} {locals : Table Offset} {e : Failure},
      pinLocals pools locals entries = .error e →
      ∃ name, e = .error (.nowhere (.unsupportedStorage name))
  | [], _, _, _, h => by cases h
  | (name, symbol) :: rest, pools, locals, e, h => by
    rw [pinLocals] at h
    split at h
    · exact unsupported_of_pinLocals h
    · exact unsupported_of_pinLocals h
    · exact unsupported_of_pinLocals h
    · cases h
      exact ⟨name, rfl⟩

/-- Functions get their frames, or a symbol of one of them is of no kind that a function can
have, if that holds of each by itself. -/
theorem frames_or_unsupported {model : Model.Program} {globals : Table Nat} :
    ∀ {labels : List String} {p : Flat.Program}, labels.Nodup →
      (∀ label ∈ labels, ∃ f source, p.find? label = some f ∧ model.function label = .ok source ∧
        ((∃ g, frame globals source f = .ok g) ∨
          ∃ name, frame globals source f = .error (.error (.nowhere (.unsupportedStorage name))))) →
      (∃ q, frames model globals p labels = .ok q) ∨
        ∃ name, frames model globals p labels =
          .error (.error (.nowhere (.unsupportedStorage name)))
  | [], p, _, _ => .inl ⟨p, rfl⟩
  | label :: rest, p, hnodup, h => by
    obtain ⟨hnotin, hnodup⟩ := List.nodup_cons.mp hnodup
    obtain ⟨f, source, hf, hsource, hframe⟩ := h label List.mem_cons_self
    have hsource : orFail ((model.function label).mapError Located.nowhere) = .ok source := by
      rw [hsource]
      rfl
    have hunfold : frames model globals p (label :: rest) =
        (frame globals source f >>= fun g => frames model globals (p.insert label g) rest) := by
      rw [frames, hsource]
      simp only [hf]
      rfl
    rw [hunfold]
    rcases hframe with ⟨g, hg⟩ | ⟨name, herror⟩
    · rw [hg]
      refine frames_or_unsupported hnodup fun other hother => ?_
      have hne : other ≠ label := by
        rintro rfl
        exact hnotin hother
      rw [Table.find?_insert, if_neg hne]
      exact h other (List.mem_cons_of_mem _ hother)
    · exact .inr ⟨name, bind_eq_error.mpr (.inl herror)⟩

end Storage

namespace Lineage

variable {model : Model.Program} {label : String} {simple : Function}
  (l : Lineage model label simple)

include l

/-- **What a live instruction names** is a symbol, and if it is a constant, an array. -/
theorem named_array (harrays : model.IndexesArrays) {i : Nat} {x : Instruction} {var : Var}
    {storage : Model.Storage} (hx : (codeOf simple.body)[i]? = some x)
    (hstorage : x.storage? = some (var, storage)) :
    ∃ name symbol, (Context.mk model l.origin).symbol name = .ok (var, symbol) ∧
      symbol.storage = storage ∧ (storage = .rom → symbol.isArray = true) := by
  have hmem := List.mem_of_getElem? (l.code_of_storage hx hstorage)
  obtain ⟨name, symbol, hsymbol, hkind⟩ := l.sourced x hmem var storage hstorage
  by_cases hrom : storage = .rom
  · have hbase : x = .rom var := by
      subst hrom
      cases x <;> cases hstorage
      rfl
    obtain ⟨name, symbol, hsymbol, hkind, harray⟩ :=
      (Flat.nameWise_fromArray _ (l.origin.statements.flatMap Stmt.indexed)).pieces
        (fun _ hstmt _ hlabel => List.mem_flatMap.mpr ⟨_, hstmt, hlabel⟩) l.pieces x hmem var hbase
    refine ⟨name, symbol, hsymbol, hkind.trans hrom.symm, fun _ => harray.elim id fun hname => ?_⟩
    obtain ⟨stmt, hstmt, hname⟩ := List.mem_flatMap.mp hname
    obtain ⟨module, hmodule, horigin⟩ := l.mem
    have hmeans := harrays module hmodule l.origin horigin stmt hstmt name hname
    obtain ⟨⟨reference, symbol'⟩, hfound, hpair⟩ := bind_eq_ok.mp hsymbol
    cases hpair
    unfold Model.Program.MeansArray at hmeans
    rw [hfound] at hmeans
    exact hmeans hkind
  · exact ⟨name, symbol, hsymbol, hkind, fun h => absurd h hrom⟩

/-- **A live assignment has its place before it.** -/
theorem place_at {j t v : Nat} {change : Option Model.MathOp} {width : Width}
    (hx : (codeOf simple.body)[j]? = some (.assign change width t v)) :
    ∃ x, (codeOf simple.body)[t]? = some x ∧ x.placeWidth? = some width := by
  obtain ⟨op, hop, hinstr⟩ := Flat.exists_of_codeOf_getElem? hx
  have hcode : l.code[j]? = some (.assign change width t v) := by
    rw [← hinstr]
    exact l.drawn.plain hop (by rw [hinstr]; nofun) (by rw [hinstr]; rfl)
  obtain ⟨piece⟩ := l.pieces.exists_assignPiece hcode
  have hplace := piece.target_at
  have hwidth : piece.place.result.placeWidth? = some width :=
    (Flat.placeWidth?_evaluatePlace piece.place_eq).trans (congrArg some piece.width_eq.symm)
  have hlt := l.linear.lt j _ hx t List.mem_cons_self
  have hinner := l.pieces.inner_before hcode (List.mem_cons_self : t ∈ [t, v])
  obtain ⟨op', hop', hsame⟩ := l.unbroken t j op hinner hop (by rw [hinstr]; nofun)
    (by rw [hinstr]; rfl) (by rw [hinstr]; rfl) t (Nat.le_refl t) hlt
  rw [hplace] at hsame
  exact ⟨_, Flat.codeOf_getElem? hop', Option.some.inj hsame ▸ hwidth⟩

/-- **The body of a simplified function is consistent** with its own symbols and all globals. -/
theorem consistent (harrays : model.IndexesArrays) {forest : Calls.Forest}
    {constants : Storage.Constants} {cursors : Storage.Cursors}
    (hconstants : Storage.placeConstants model = .ok constants)
    (hcursors : Storage.placeVariables model forest constants.addresses = .ok cursors)
    {pools : Storage.Pools} {locals : Table Offset}
    (hpin : Storage.pinLocals {} simple.locals l.origin.symbols.entries = .ok (pools, locals)) :
    Storage.Consistent
      { label := simple.label, globals := cursors.addresses
        locals := (Storage.pinResult pools locals l.origin.returns).2 } simple.body where
  linear := l.linear
  resolved := fun _ _ _ => l.target_index
  place := fun _ _ _ _ _ => l.place_at
  inFile := by
    intro i x var storage file hx hstorage hfile
    obtain ⟨_, symbol, hsymbol, rfl, harray⟩ := l.named_array harrays hx hstorage
    rcases Flat.symbol_cases hsymbol with ⟨own, rfl, hown⟩ | ⟨module, own, rfl, hglobal⟩
    · obtain ⟨slot, hslot⟩ := (Storage.pinsAs_of_pinLocals own l.origin.symbols.ascending hpin).mine
        symbol file hown hfile
      exact Storage.find?_pinResult hslot _
    · obtain ⟨address, hfind⟩ := Storage.exists_address hconstants hcursors hglobal harray
      exact ⟨.absolute address, by rw [Storage.Scope.find?, hfind]; rfl⟩
  elsewhere := by
    intro i x var storage hx hstorage hfile
    obtain ⟨_, symbol, hsymbol, rfl, harray⟩ := l.named_array harrays hx hstorage
    rcases Flat.symbol_cases hsymbol with ⟨own, rfl, hown⟩ | ⟨module, own, rfl, hglobal⟩
    · have hentry := Table.find?_eq_some.mp hown
      obtain ⟨hport, hram⟩ := Storage.storage_of_pinLocals hpin _ hentry
      have hrom : symbol.storage = .rom := by
        cases hkind : symbol.storage with
        | rom => rfl
        | port => exact absurd hkind hport
        | ram => exact absurd hkind hram
        | register | bit =>
            rw [hkind] at hfile
            cases hfile
      have hsingle : symbol.count = 1 := Storage.count_of_pinLocals hpin _ hentry
      have harray := harray hrom
      rw [Model.Symbol.isArray, hsingle] at harray
      cases harray
    · obtain ⟨address, hfind⟩ := Storage.exists_address hconstants hcursors hglobal harray
      exact ⟨_, address, rfl, hfind⟩

/-- **A simplified function gets its frame**, or one of its symbols is of no kind that it can
have. -/
theorem frame_or_unsupported (harrays : model.IndexesArrays) {forest : Calls.Forest}
    {constants : Storage.Constants} {cursors : Storage.Cursors}
    (hconstants : Storage.placeConstants model = .ok constants)
    (hcursors : Storage.placeVariables model forest constants.addresses = .ok cursors) :
    (∃ g, Storage.frame cursors.addresses l.origin simple = .ok g) ∨
      ∃ name, Storage.frame cursors.addresses l.origin simple =
        .error (.error (.nowhere (.unsupportedStorage name))) := by
  cases hpin : Storage.pinLocals {} simple.locals l.origin.symbols.entries with
  | ok pinned => exact .inl ((l.consistent harrays hconstants hcursors hpin).frame hpin)
  | error e =>
      obtain ⟨name, rfl⟩ := Storage.unsupported_of_pinLocals hpin
      exact .inr ⟨name, bind_eq_error.mpr (.inl hpin)⟩

end Lineage

/-- **Allocation finds no fault in the instructions.**  The functions of the program are stored
where their labels say, and it was flattened, simplified and unfolded.  If it puts an index on no
constant that is not an array, then no failure of its allocation is a fault: once the globals
have their addresses, all functions that are reached get their frames, or a symbol of one of them
is of no kind that a function can have. -/
theorem allocation_finds_no_fault {model : Model.Program} {flat p : Flat.Program}
    {forest : Calls.Forest} (hfiled : model.Filed) (harrays : model.IndexesArrays)
    (hflat : Flat.Program.ofModel model = .ok flat) (hsimple : flat.simplify = .ok p)
    (hforest : Calls.Forest.build model p = .ok forest) :
    (∀ e, Storage.allocate model p forest = .error (.error e) → e.value.isInternal = false) ∧
    ∀ constants cursors, Storage.placeConstants model = .ok constants →
      Storage.placeVariables model forest constants.addresses = .ok cursors →
      (∃ framed, Storage.frames model cursors.addresses p forest.reachable = .ok framed) ∨
        ∃ name, Storage.frames model cursors.addresses p forest.reachable =
          .error (.error (.nowhere (.unsupportedStorage name))) := by
  have hframes : ∀ constants cursors, Storage.placeConstants model = .ok constants →
      Storage.placeVariables model forest constants.addresses = .ok cursors →
      (∃ framed, Storage.frames model cursors.addresses p forest.reachable = .ok framed) ∨
        ∃ name, Storage.frames model cursors.addresses p forest.reachable =
          .error (.error (.nowhere (.unsupportedStorage name))) := by
    intro constants cursors hconstants hcursors
    refine Storage.frames_or_unsupported (Calls.nodup_distinct _) fun label hlabel => ?_
    obtain ⟨f, hf⟩ := (Calls.Forest.rooted_of_build hforest).find?_of_mem_reachable hlabel
    obtain ⟨l⟩ := exists_lineage hflat hsimple hf
    exact ⟨f, l.origin, hf, l.function_eq hfiled,
      l.frame_or_unsupported harrays hconstants hcursors⟩
  refine ⟨fun e he => ?_, hframes⟩
  refine Storage.failsOnly_allocate_of_frames hforest p (fun _ h => h) ?_ _ he e rfl
  intro constants cursors hconstants hcursors
  rcases hframes constants cursors hconstants hcursors with ⟨framed, hok⟩ | ⟨name, herror⟩
  · rw [hok]
    exact .ok framed
  · rw [herror]
    exact .error (refusal_nowhere rfl)

/-- A program with a table of constants and a single constant, whose entry reads an element of
one of its symbols. -/
def elementOf (name : String) : Model.Program :=
  let entry : Model.Function :=
    (({ label := "demo.main" } : Model.Function).addSymbol "k" .word).withBody
      [.assign (.var "k") none (.index name (.var "k"))]
  let demo : Model.Module :=
    ((({} : Model.Module).addSymbol "table" (.constant .int [3, 1, 2])).addSymbol "limit"
      (.constant .int [7])).addFunction entry
  { name := "demo", modules := Table.empty.insert "demo" demo }

/-- The entry of `elementOf "table"` gets its frame, and there is no fault. -/
theorem allocation_finds_no_fault_table :
    ∃ flat p forest, Flat.Program.ofModel (elementOf "table") = .ok flat ∧ flat.simplify = .ok p ∧
      Calls.Forest.build (elementOf "table") p = .ok forest ∧
      ∀ e, Storage.allocate (elementOf "table") p forest = .error (.error e) →
        e.value.isInternal = false := by
  have hok : (build (elementOf "table")).toOption.isSome = true := by decide +kernel
  obtain ⟨c, hbuild⟩ := Option.isSome_iff_exists.mp hok
  obtain ⟨s⟩ := stages_of_build (toOption_eq_some.mp hbuild)
  exact ⟨s.flat, s.simple, c.forest, s.flat_eq, s.simple_eq, s.forest_eq,
    (allocation_finds_no_fault (by decide +kernel) (by decide +kernel) s.flat_eq s.simple_eq
      s.forest_eq).1⟩

/-- The error that a failed phase reports. -/
def reported? {α : Type} : Except Failure α → Option (Located CompileError)
  | .error (.error e) => some e
  | _ => none

/-- A phase that reports an error failed with it. -/
theorem reported?_eq_some {α : Type} {r : Except Failure α} {e : Located CompileError} :
    reported? r = some e ↔ r = .error (.error e) := by
  constructor
  · intro h
    unfold reported? at h
    split at h
    · cases h
      rfl
    · cases h
  · rintro rfl
    rfl

/-- **A constant that is no array may have an index, and then has no address.**  The functions of
`elementOf "limit"` are stored where their labels say, it is flattened, simplified and unfolded,
and its allocation reports a fault of an instruction. -/
theorem scalar_with_index :
    (elementOf "limit").Filed ∧
      ∃ flat p forest, Flat.Program.ofModel (elementOf "limit") = .ok flat ∧
        flat.simplify = .ok p ∧ Calls.Forest.build (elementOf "limit") p = .ok forest ∧
        ∃ e, Storage.allocate (elementOf "limit") p forest = .error (.error e) ∧
          e.value.isInternal = true := by
  refine ⟨by decide +kernel, ?_⟩
  have hfault : ((Flat.Program.ofModel (elementOf "limit")).toOption.bind fun flat =>
      flat.simplify.toOption.bind fun p =>
        (Calls.Forest.build (elementOf "limit") p).toOption.map fun forest =>
          (reported? (Storage.allocate (elementOf "limit") p forest)).map (·.value.isInternal)) =
      some (some true) := by decide +kernel
  obtain ⟨flat, hflat, hfault⟩ := Option.bind_eq_some_iff.mp hfault
  obtain ⟨p, hsimple, hfault⟩ := Option.bind_eq_some_iff.mp hfault
  obtain ⟨forest, hforest, hfault⟩ := Option.map_eq_some_iff.mp hfault
  refine ⟨flat, p, forest, toOption_eq_some.mp hflat, toOption_eq_some.mp hsimple,
    toOption_eq_some.mp hforest, ?_⟩
  obtain ⟨e, herror, hinternal⟩ := Option.map_eq_some_iff.mp hfault
  exact ⟨e, reported?_eq_some.mp herror, hinternal⟩

end Stackless
