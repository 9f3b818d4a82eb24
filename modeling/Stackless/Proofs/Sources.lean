import Stackless.Proofs.Placement

/-!
# What the instructions of a function name

An instruction that reads or writes named storage was made for a symbol that is seen from
the function, and is of the symbol's kind of storage (`Sourced`).  So a local that is read
from the register file is a symbol in the register file, and its slot is there too, if the
function is the one that its label finds (`Filed`) and the result does not take its place.

* `NameWise` — a property that is checked where names are read, written or indexed holds of all
  code;
* `Lineage.sourced` — all instructions of a flat body are sourced;
* `Lineage.origin_eq_source` — in a program whose functions are stored where their labels
  say, a function is framed with the symbols that it was flattened with;
* `Framing.local_file` — locals have slots in the files of their storage (`KeepsResult`);
* `Member.sees_of_temp`, `Member.sees_of_variable` — so what a function reads from a file is in its
  window of that file or a global of it (`Member.Sees`).
-/

namespace Stackless

open Flat (Op Instruction Offset File Width Var Context Evaluation codeOf)
open Model (Symbol Expr Stmt)

/-- Every function is stored under its own label, in the module that the label names. -/
def Model.Program.Filed (model : Model.Program) : Prop :=
  ∀ entry ∈ model.modules.entries, ∀ stored ∈ entry.2.functions.entries,
    stored.1 = stored.2.label ∧ stored.2.module = entry.1

instance (model : Model.Program) : Decidable model.Filed :=
  inferInstanceAs (Decidable (∀ entry ∈ model.modules.entries,
    ∀ stored ∈ entry.2.functions.entries, stored.1 = stored.2.label ∧ stored.2.module = entry.1))

/-- A function that is stored where its label says is found there. -/
theorem Model.Program.Filed.function_eq {model : Model.Program} (h : model.Filed)
    {module : Model.Module} {f : Model.Function} (hmodule : module ∈ model.modules.values)
    (hf : f ∈ module.functions.values) : model.function f.label = .ok f := by
  obtain ⟨⟨key, module⟩, hentry, rfl⟩ := List.mem_map.mp hmodule
  obtain ⟨⟨name, f⟩, hstored, rfl⟩ := List.mem_map.mp hf
  obtain ⟨hname, hkey⟩ := h _ hentry _ hstored
  have hmodule : model.modules.find? f.module = some module :=
    hkey ▸ Table.find?_eq_some.mpr hentry
  have hfunction : module.functions.find? f.label = some f :=
    hname ▸ Table.find?_eq_some.mpr hstored
  unfold Model.Program.function
  rw [← Model.Function.module, hmodule]
  dsimp only
  rw [hfunction]

namespace Model

mutual

/-- The labels that an expression puts an index on. -/
def Expr.indexed : Expr → List String
  | .index label index => label :: index.indexed
  | .unary _ operand => operand.indexed
  | .binary _ lhs rhs | .compare _ lhs rhs => lhs.indexed ++ rhs.indexed
  | .call _ arguments => indexedAll arguments
  | .int _ | .bool _ | .var _ => []

/-- The labels that expressions put an index on. -/
def indexedAll : List Expr → List String
  | [] => []
  | e :: rest => e.indexed ++ indexedAll rest

end

/-- The labels that the expressions of a statement put an index on. -/
def Stmt.indexed : Stmt → List String
  | .branch condition _ _ => condition.indexed
  | .assign target _ value => value.indexed ++ target.indexed
  | .call _ arguments => indexedAll arguments
  | .ret (some value) | .timer value => value.indexed
  | _ => []

end Model

namespace Flat

/-- The variable that an instruction names, and in which kind of storage. -/
def Instruction.storage? : Instruction → Option (Var × Model.Storage)
  | .register var => some (var, .register)
  | .bit var => some (var, .bit)
  | .ram var => some (var, .ram)
  | .rom var => some (var, .rom)
  | .portIn var | .portOut var => some (var, .port)
  | _ => none

section Expressions

variable {ctx : Context}

/-- The base of an array names the array. -/
theorem storage?_arrayBase? {var : Var} {symbol : Symbol} {array : Instruction} {space : Space}
    (h : arrayBase? var symbol = some (array, space)) :
    array.storage? = some (var, symbol.storage) := by
  unfold arrayBase? at h
  split at h
  all_goals cases h
  all_goals simp_all [Instruction.storage?]

theorem storage?_writableBase? {var : Var} {symbol : Symbol} {array : Instruction}
    (h : writableBase? var symbol = some array) :
    array.storage? = some (var, symbol.storage) :=
  storage?_arrayBase? (arrayBase?_of_writableBase? h)

theorem storage?_writeVar? {var : Var} {symbol : Symbol} {place : Evaluation}
    (h : writeVar? var symbol = some place) :
    place.result.storage? = some (var, symbol.storage) := by
  unfold writeVar? at h
  split at h
  all_goals cases h
  all_goals simp_all [Instruction.storage?, Evaluation.single]

/-- The callee of a call is the function under its label. -/
theorem callee_eq_ok {label : String} {found : Nat} {callee : Model.Function}
    (h : ctx.callee label found = .ok callee) : ctx.program.function label = .ok callee := by
  obtain ⟨callee', hcallee, h⟩ := bind_eq_ok.mp h
  split at h
  · cases h
    exact hcallee
  · cases h

/-- A property that instructions have if they name nothing, and where a function is called, or a
name is read, written, or one of the labels with an index. -/
structure NameWise (ctx : Context) (indexed : List String) (P : Instruction → Prop) : Prop where
  plain : ∀ x : Instruction, x.storage? = none → (∀ label result, x ≠ .call label result) → P x
  call : ∀ label callee result, ctx.program.function label = .ok callee → P (.call label result)
  read : ∀ name var symbol, ctx.symbol name = .ok (var, symbol) → P (readVar var symbol).result
  write : ∀ name var symbol place, ctx.symbol name = .ok (var, symbol) →
    writeVar? var symbol = some place → P place.result
  base : ∀ name ∈ indexed, ∀ var symbol (x : Instruction), ctx.symbol name = .ok (var, symbol) →
    x.storage? = some (var, symbol.storage) → P x

namespace NameWise

variable {indexed : List String} {P : Instruction → Prop}

mutual

/-- **All code of an expression has the property.** -/
theorem evaluate (hP : NameWise ctx indexed P) :
    ∀ (e : Expr) {start : Nat} {out : Evaluation}, e.indexed ⊆ indexed →
      Flat.evaluate ctx start e = .ok out → ∀ x ∈ out.code, P x
  | .int value, start, out, _, h => by
    cases h
    intro x hx
    rw [List.mem_singleton.mp hx]
    exact hP.plain _ rfl nofun
  | .bool value, start, out, _, h => by
    cases h
    intro x hx
    rw [List.mem_singleton.mp hx]
    exact hP.plain _ rfl nofun
  | .var label, start, out, _, h => by
    obtain ⟨⟨var, symbol⟩, hsymbol, h⟩ := bind_eq_ok.mp h
    cases h
    intro x hx
    rw [Evaluation.code, readVar_single, List.nil_append, List.mem_singleton] at hx
    rw [hx]
    exact hP.read label var symbol hsymbol
  | .index label index, start, out, hsub, h => by
    obtain ⟨⟨var, symbol⟩, hsymbol, h⟩ := bind_eq_ok.mp h
    obtain ⟨⟨array, space⟩, harray, h⟩ := bind_eq_ok.mp h
    obtain ⟨value, hvalue, h⟩ := bind_eq_ok.mp h
    cases h
    obtain ⟨hlabel, hsub⟩ := List.cons_subset.mp hsub
    intro x hx
    rw [Evaluation.code, List.cons_append, List.mem_cons, List.mem_append, List.mem_singleton] at hx
    rcases hx with rfl | hx | rfl
    · exact hP.base label hlabel var symbol _ hsymbol (storage?_arrayBase? (orError_eq_ok.mp harray))
    · exact evaluate hP index hsub hvalue x hx
    · exact hP.plain _ rfl nofun
  | .unary op operand, start, out, hsub, h => by
    obtain ⟨value, hvalue, h⟩ := bind_eq_ok.mp h
    cases h
    intro x hx
    rcases List.mem_append.mp hx with hx | hx
    · exact evaluate hP operand hsub hvalue x hx
    · rw [List.mem_singleton.mp hx]
      exact hP.plain _ rfl nofun
  | .binary op lhs rhs, start, out, hsub, h => by
    obtain ⟨left, hleft, h⟩ := bind_eq_ok.mp h
    obtain ⟨right, hright, h⟩ := bind_eq_ok.mp h
    cases h
    obtain ⟨hsubl, hsubr⟩ := List.append_subset.mp hsub
    intro x hx
    rcases List.mem_append.mp hx with hx | hx
    · rcases List.mem_append.mp hx with hx | hx
      · exact evaluate hP lhs hsubl hleft x hx
      · exact evaluate hP rhs hsubr hright x hx
    · rw [List.mem_singleton.mp hx]
      exact hP.plain _ rfl nofun
  | .compare op lhs rhs, start, out, hsub, h => by
    obtain ⟨left, hleft, h⟩ := bind_eq_ok.mp h
    obtain ⟨right, hright, h⟩ := bind_eq_ok.mp h
    cases h
    obtain ⟨hsubl, hsubr⟩ := List.append_subset.mp hsub
    intro x hx
    rcases List.mem_append.mp hx with hx | hx
    · rcases List.mem_append.mp hx with hx | hx
      · exact evaluate hP lhs hsubl hleft x hx
      · exact evaluate hP rhs hsubr hright x hx
    · rw [List.mem_singleton.mp hx]
      exact hP.plain _ rfl nofun
  | .call function arguments, start, out, hsub, h => by
    obtain ⟨callee, hcallee, h⟩ := bind_eq_ok.mp h
    obtain ⟨⟨code, refs⟩, hcode, h⟩ := bind_eq_ok.mp h
    cases hreturns : callee.returns with
    | none =>
        rw [hreturns] at h
        cases h
    | some type =>
        rw [hreturns] at h
        cases h
        intro x hx
        rcases List.mem_append.mp hx with hx | hx
        · rcases List.mem_append.mp hx with hx | hx
          · exact evaluateAll hP arguments hsub hcode x hx
          · obtain ⟨name, r, _, rfl⟩ := mem_passing hx
            exact hP.plain _ rfl nofun
        · rw [List.mem_singleton.mp hx]
          exact hP.call _ callee _ (callee_eq_ok hcallee)

/-- So has the code of several expressions. -/
theorem evaluateAll (hP : NameWise ctx indexed P) :
    ∀ (es : List Expr) {start : Nat} {code : List Instruction} {refs : List Nat},
      Model.indexedAll es ⊆ indexed → Flat.evaluateAll ctx start es = .ok (code, refs) →
      ∀ x ∈ code, P x
  | [], start, code, refs, _, h => by
    cases h
    nofun
  | e :: rest, start, code, refs, hsub, h => by
    obtain ⟨value, hvalue, h⟩ := bind_eq_ok.mp h
    obtain ⟨⟨code', refs'⟩, hrest, h⟩ := bind_eq_ok.mp h
    cases h
    obtain ⟨hsube, hsubr⟩ := List.append_subset.mp hsub
    intro x hx
    rcases List.mem_append.mp hx with hx | hx
    · exact evaluate hP e hsube hvalue x hx
    · exact evaluateAll hP rest hsubr hrest x hx

end

variable (hP : NameWise ctx indexed P)

include hP

/-- So has the code of a place. -/
theorem evaluatePlace {e : Expr} {start : Nat} {out : Evaluation} (hsub : e.indexed ⊆ indexed)
    (h : Flat.evaluatePlace ctx start e = .ok out) : ∀ x ∈ out.code, P x := by
  unfold Flat.evaluatePlace at h
  split at h
  · obtain ⟨⟨var, symbol⟩, hsymbol, h⟩ := bind_eq_ok.mp h
    have hwrite := orError_eq_ok.mp h
    intro x hx
    rw [Evaluation.code, writeVar?_single hwrite, List.nil_append, List.mem_singleton] at hx
    rw [hx]
    exact hP.write _ var symbol out hsymbol hwrite
  · obtain ⟨⟨var, symbol⟩, hsymbol, h⟩ := bind_eq_ok.mp h
    obtain ⟨array, harray, h⟩ := bind_eq_ok.mp h
    obtain ⟨value, hvalue, h⟩ := bind_eq_ok.mp h
    cases h
    obtain ⟨hlabel, hsub⟩ := List.cons_subset.mp hsub
    intro x hx
    rw [Evaluation.code, List.cons_append, List.mem_cons, List.mem_append, List.mem_singleton] at hx
    rcases hx with rfl | hx | rfl
    · exact hP.base _ hlabel var symbol _ hsymbol (storage?_writableBase? (orError_eq_ok.mp harray))
    · exact hP.evaluate _ hsub hvalue x hx
    · exact hP.plain _ rfl nofun
  · cases h

/-- So has the code of a simple statement. -/
theorem simpleCode {stmt : Stmt} {start : Nat} {code : List Instruction}
    (hsub : stmt.indexed ⊆ indexed) (h : Flat.simpleCode ctx start stmt = .ok code) :
    ∀ x ∈ code, P x := by
  intro x hx
  cases stmt with
  | assign target op value =>
      obtain ⟨value', hvalue, h⟩ := bind_eq_ok.mp h
      obtain ⟨place, hplace, h⟩ := bind_eq_ok.mp h
      cases h
      obtain ⟨hsubv, hsubt⟩ := List.append_subset.mp hsub
      rcases List.mem_append.mp hx with hx | hx
      · rcases List.mem_append.mp hx with hx | hx
        · exact hP.evaluate value hsubv hvalue x hx
        · exact hP.evaluatePlace hsubt hplace x hx
      · rw [List.mem_singleton.mp hx]
        exact hP.plain _ rfl nofun
  | call function arguments =>
      obtain ⟨callee, hcallee, h⟩ := bind_eq_ok.mp h
      obtain ⟨⟨code', refs⟩, hcode, h⟩ := bind_eq_ok.mp h
      cases h
      rcases List.mem_append.mp hx with hx | hx
      · rcases List.mem_append.mp hx with hx | hx
        · exact hP.evaluateAll arguments hsub hcode x hx
        · obtain ⟨name, r, _, rfl⟩ := mem_passing hx
          exact hP.plain _ rfl nofun
      · rw [List.mem_singleton.mp hx]
        exact hP.call _ callee _ (callee_eq_ok hcallee)
  | ret value =>
      cases value with
      | none =>
          cases h
          rw [List.mem_singleton.mp hx]
          exact hP.plain _ rfl nofun
      | some value =>
          obtain ⟨value', hvalue, h⟩ := bind_eq_ok.mp h
          cases h
          rcases List.mem_append.mp hx with hx | hx
          · exact hP.evaluate value hsub hvalue x hx
          · rw [List.mem_singleton.mp hx]
            exact hP.plain _ rfl nofun
  | timer value =>
      obtain ⟨value', hvalue, h⟩ := bind_eq_ok.mp h
      cases h
      rcases List.mem_append.mp hx with hx | hx
      · exact hP.evaluate value hsub hvalue x hx
      · rw [List.mem_singleton.mp hx]
        exact hP.plain _ rfl nofun
  | level | halt | pause | reset | restart | nop =>
      cases h
      rw [List.mem_singleton.mp hx]
      exact hP.plain _ rfl nofun
  | block | branch | loop | breakLoop | continueLoop =>
      cases h
      cases hx

/-- **A row of pieces has the property.** -/
theorem pieces {stmts : List Stmt} {start : Nat} {code : List Instruction}
    (hsub : ∀ stmt ∈ stmts, stmt.indexed ⊆ indexed) (h : Pieces ctx stmts start code) :
    ∀ x ∈ code, P x := by
  induction h with
  | nil =>
      intro x hx
      cases hx
  | cons hpiece _ ih =>
      intro x hx
      rcases List.mem_append.mp hx with hx | hx
      · cases hpiece with
        | marker | jump | ending =>
            rw [List.mem_singleton.mp hx]
            exact hP.plain _ rfl (by simp)
        | @test condition _ _ _ _ _ hmem hvalue =>
            rcases List.mem_append.mp hx with hx | hx
            · refine hP.evaluate _ (fun label hlabel => hsub _ hmem ?_) hvalue x hx
              unfold polarity at hlabel
              split at hlabel
              · exact hlabel
              · exact hlabel
            · rw [List.mem_singleton.mp hx]
              exact hP.plain _ rfl (by simp)
        | simple hmem _ hcode => exact hP.simpleCode (hsub _ hmem) hcode x hx
      · exact ih x hx

end NameWise

/-- What the instruction names is seen from the function, and in that kind of storage. -/
def Sourced (ctx : Context) (x : Instruction) : Prop :=
  ∀ var storage, x.storage? = some (var, storage) →
    ∃ name symbol, ctx.symbol name = .ok (var, symbol) ∧ symbol.storage = storage

/-- An instruction that names a symbol in its storage is sourced. -/
theorem sourced_of_symbol {name : String} {var : Var} {symbol : Symbol} {x : Instruction}
    (h : ctx.symbol name = .ok (var, symbol)) (hx : x.storage? = some (var, symbol.storage)) :
    Sourced ctx x := by
  intro var' storage hsome
  rw [hx] at hsome
  cases hsome
  exact ⟨name, symbol, h, rfl⟩

/-- Instructions are sourced wherever they name something. -/
theorem nameWise_sourced (ctx : Context) (indexed : List String) :
    NameWise ctx indexed (Sourced ctx) where
  plain := fun x hx _ var storage hsome => by
    rw [hx] at hsome
    cases hsome
  call := nofun
  read := fun name var symbol h => by
    unfold readVar
    cases hstorage : symbol.storage with
    | rom =>
        dsimp only
        split
        · exact sourced_of_symbol h (by rw [hstorage]; rfl)
        · unfold literalOf
          split
          all_goals nofun
    | _ => exact sourced_of_symbol h (by rw [hstorage]; rfl)
  write := fun _ _ _ _ h hwrite => sourced_of_symbol h (storage?_writeVar? hwrite)
  base := fun _ _ _ _ _ h hstorage => sourced_of_symbol h hstorage

/-- **A row of pieces is sourced.**  Names come into flat code only from the names in expressions,
which are looked up as the function sees them. -/
theorem Pieces.sourced {stmts : List Stmt} {start : Nat} {code : List Instruction}
    (h : Pieces ctx stmts start code) : ∀ x ∈ code, Sourced ctx x :=
  (nameWise_sourced ctx (stmts.flatMap Stmt.indexed)).pieces
    (fun _ hstmt _ hlabel => List.mem_flatMap.mpr ⟨_, hstmt, hlabel⟩) h

end Expressions

/-- **What a name means.**  A variable of the function is one of its symbols, and any other
is a global of its module. -/
theorem symbol_cases {ctx : Context} {name : String} {var : Var} {symbol : Symbol}
    (h : ctx.symbol name = .ok (var, symbol)) :
    (∃ own, var = .localVar own ∧ ctx.function.symbols.find? own = some symbol) ∨
      ∃ module own, var = .globalVar (Model.qualify module own) ∧
        ctx.program.global? module own = some symbol := by
  obtain ⟨⟨reference, symbol'⟩, hsymbol, h⟩ := bind_eq_ok.mp h
  cases h
  unfold Model.Program.symbol at hsymbol
  split at hsymbol
  · split at hsymbol
    · rename_i hfind
      cases hsymbol
      exact .inl ⟨name, rfl, hfind⟩
    · split at hsymbol
      · rename_i hglobal
        cases hsymbol
        exact .inr ⟨_, name, rfl, hglobal⟩
      · cases hsymbol
  · rename_i module own _
    split at hsymbol
    · cases hsymbol
    · rename_i m hmodule
      split at hsymbol
      · rename_i hfind
        cases hsymbol
        refine .inr ⟨module, own, rfl, ?_⟩
        rw [Model.Program.global?, hmodule]
        exact hfind
      · cases hsymbol

end Flat

namespace Storage

/-- The file that a kind of storage is. -/
def fileOf? : Model.Storage → Option File
  | .register => some .register
  | .bit => some .bit
  | _ => none

/-- What pinning locals does to a name: a local gets a slot in the file of its storage, and
any other name stays as it was. -/
structure PinsAs (name : String) (entries : List (String × Symbol)) (before after : Table Offset) :
    Prop where
  mine : ∀ symbol file, entries.lookup name = some symbol → fileOf? symbol.storage = some file →
    ∃ slot, after.find? name = some (.relative file slot)
  other : entries.lookup name = none → after.find? name = before.find? name

/-- One more local in front. -/
theorem PinsAs.cons {name key : String} {symbol : Symbol} {rest : List (String × Symbol)}
    {before mid after : Table Offset} (h : PinsAs name rest mid after)
    (hkey : ∀ e ∈ rest, key < e.1)
    (hothers : ∀ other, other ≠ key → mid.find? other = before.find? other)
    (hmine : ∀ file, fileOf? symbol.storage = some file →
      ∃ slot, mid.find? key = some (.relative file slot)) :
    PinsAs name ((key, symbol) :: rest) before after := by
  by_cases heq : name = key
  · subst heq
    have hmid := h.other (Table.lookup_eq_none_of_lt hkey)
    constructor
    · intro found file hfound hfile
      rw [List.lookup_cons_self] at hfound
      cases hfound
      rw [hmid]
      exact hmine file hfile
    · intro hnone
      rw [List.lookup_cons_self] at hnone
      cases hnone
  · have hlookup : ((key, symbol) :: rest).lookup name = rest.lookup name := by
      rw [List.lookup_cons, beq_false_of_ne heq]
    constructor
    · rw [hlookup]
      exact h.mine
    · rw [hlookup]
      exact fun hnone => (h.other hnone).trans (hothers name heq)

/-- **Pinning gives every local a slot in the file of its storage.** -/
theorem pinsAs_of_pinLocals (name : String) :
    ∀ {entries : List (String × Symbol)} {pools pools' : Pools} {locals locals' : Table Offset},
      entries.Pairwise (fun a b => a.1 < b.1) →
      pinLocals pools locals entries = .ok (pools', locals') → PinsAs name entries locals locals'
  | [], pools, pools', locals, locals', _, h => by
    cases h
    exact ⟨nofun, fun _ => rfl⟩
  | (key, symbol) :: rest, pools, pools', locals, locals', hascending, h => by
    obtain ⟨hkey, hascending⟩ := List.pairwise_cons.mp hascending
    have hpinned : ∀ file, fileOf? symbol.storage = some file →
        pinLocals (pools.pin file).2 (locals.insert key (pools.pin file).1) rest =
          .ok (pools', locals') → PinsAs name ((key, symbol) :: rest) locals locals' := by
      intro file hfile hrest
      refine (pinsAs_of_pinLocals name hascending hrest).cons hkey
        (fun other hne => Table.find?_insert_of_ne _ _ hne) fun file' hfile' => ?_
      rw [hfile] at hfile'
      cases hfile'
      rw [Table.find?_insert_self, (pools.pin_eq file).1]
      exact ⟨_, rfl⟩
    rw [pinLocals] at h
    split at h
    · rename_i hstorage _
      exact hpinned .register (by rw [hstorage]; rfl) h
    · rename_i hstorage _
      exact hpinned .bit (by rw [hstorage]; rfl) h
    · rename_i hstorage _
      refine (pinsAs_of_pinLocals name hascending h).cons hkey (fun _ _ => rfl) fun file hfile => ?_
      rw [hstorage] at hfile
      cases hfile
    · cases h

end Storage

/-- A symbol with the name of the result is in the file of the result, if there is one: the two
share a slot. -/
def Model.Function.KeepsResult (f : Model.Function) : Prop :=
  ∀ symbol type file, f.symbols.find? Storage.resultName = some symbol → f.returns = some type →
    Storage.fileOf? symbol.storage = some file → file = Storage.fileOf type

instance (f : Model.Function) : Decidable f.KeepsResult :=
  decidable_of_iff
    ((f.symbols.find? Storage.resultName).all (fun symbol => f.returns.all fun type =>
      (Storage.fileOf? symbol.storage).all (· = Storage.fileOf type)) = true)
    (by simp only [Option.all_eq_true, decide_eq_true_eq, Model.Function.KeepsResult]
        exact ⟨fun h symbol type file hs ht => h symbol hs type ht file,
          fun h symbol hs type ht file => h symbol type file hs ht⟩)

theorem Model.Function.keepsResult_of_unnamed {f : Model.Function}
    (h : f.symbols.find? Storage.resultName = none) : f.KeepsResult := by
  intro symbol type file hsymbol
  rw [h] at hsymbol
  cases hsymbol

/-- In every function a symbol with the name of the result is in the file of the result. -/
def Model.Program.KeepsResults (model : Model.Program) : Prop :=
  ∀ module ∈ model.modules.values, ∀ f ∈ module.functions.values, f.KeepsResult

instance (model : Model.Program) : Decidable model.KeepsResults :=
  inferInstanceAs (Decidable (∀ module ∈ model.modules.values,
    ∀ f ∈ module.functions.values, f.KeepsResult))

namespace Storage

/-- The result has a slot in the file of its type. -/
theorem Framing.result_file {globals : Table Nat} {source : Model.Function} {f g : Flat.Function}
    (fr : Framing globals source f g) {type : Model.ValueType} (h : source.returns = some type) :
    ∃ slot, fr.visit.scope.locals.find? resultName = some (.relative (fileOf type) slot) := by
  rw [fr.scope_eq, h]
  exact ⟨_, (Table.find?_insert_self ..).trans (congrArg some (Pools.pin_eq _ _).1)⟩

/-- **A local has a slot in the file of its storage**, unless the result takes its place in
another. -/
theorem Framing.local_file {globals : Table Nat} {source : Model.Function} {f g : Flat.Function}
    (fr : Framing globals source f g) {name : String} {symbol : Symbol} {file : File}
    (hfind : source.symbols.find? name = some symbol) (hfile : fileOf? symbol.storage = some file)
    (hkeeps : source.KeepsResult) :
    ∃ slot, fr.visit.scope.locals.find? name = some (.relative file slot) := by
  obtain ⟨slot, hslot⟩ :=
    (pinsAs_of_pinLocals name source.symbols.ascending fr.pin_eq).mine symbol file hfind hfile
  cases hreturns : source.returns with
  | none =>
      rw [fr.scope_eq, hreturns]
      exact ⟨slot, hslot⟩
  | some type =>
      by_cases hname : name = resultName
      · subst hname
        rw [hkeeps symbol type file hfind hreturns hfile]
        exact fr.result_file hreturns
      · rw [fr.scope_eq, hreturns]
        exact ⟨slot, (Table.find?_insert_of_ne _ _ hname).trans hslot⟩

/-- Locals that can be pinned are registers, bits and constants. -/
theorem storage_of_pinLocals :
    ∀ {entries : List (String × Symbol)} {pools pools' : Pools} {locals locals' : Table Offset},
      pinLocals pools locals entries = .ok (pools', locals') →
      ∀ e ∈ entries, e.2.storage ≠ .port ∧ e.2.storage ≠ .ram
  | [], _, _, _, _, _, e, he => by cases he
  | (key, symbol) :: rest, pools, pools', locals, locals', h, e, he => by
    rw [pinLocals] at h
    split at h
    · rename_i hstorage _
      rcases List.mem_cons.mp he with rfl | he
      · simp [hstorage]
      · exact storage_of_pinLocals h e he
    · rename_i hstorage _
      rcases List.mem_cons.mp he with rfl | he
      · simp [hstorage]
      · exact storage_of_pinLocals h e he
    · rename_i hstorage _
      rcases List.mem_cons.mp he with rfl | he
      · simp [hstorage]
      · exact storage_of_pinLocals h e he
    · cases h

/-- Without a result, its name has a slot only if it is a symbol. -/
theorem Framing.result_none {globals : Table Nat} {source : Model.Function} {f g : Flat.Function}
    (fr : Framing globals source f g) (hlocals : f.locals = ∅) (hreturns : source.returns = none)
    (hsymbol : source.symbols.find? resultName = none) :
    fr.visit.scope.locals.find? resultName = none := by
  have hpins := pinsAs_of_pinLocals resultName source.symbols.ascending fr.pin_eq
  rw [fr.scope_eq, hreturns]
  refine (hpins.other hsymbol).trans ?_
  rw [hlocals]
  rfl

end Storage

namespace Lineage

variable {model : Model.Program} {label : String} {simple : Flat.Function}
  (l : Lineage model label simple)

include l

/-- All instructions that a function was flattened into are sourced. -/
theorem sourced : ∀ x ∈ l.code, Flat.Sourced ⟨model, l.origin⟩ x :=
  l.pieces.sourced

/-- **Functions are found under their labels**, if they are stored where their labels say. -/
theorem function_eq (h : model.Filed) : model.function label = .ok l.origin := by
  obtain ⟨module, hmodule, horigin⟩ := l.mem
  have hfound := h.function_eq hmodule horigin
  rwa [l.label_eq] at hfound

/-- An instruction that names storage is as it was flattened. -/
theorem code_of_storage {i : Nat} {x : Instruction} {named : Var × Model.Storage}
    (hx : (codeOf simple.body)[i]? = some x) (hstorage : x.storage? = some named) :
    l.code[i]? = some x := by
  obtain ⟨op, hop, rfl⟩ := Flat.exists_of_codeOf_getElem? hx
  refine l.drawn.plain hop (fun heq => by rw [heq] at hstorage; cases hstorage) ?_
  cases hinstr : op.instruction with
  | jump | branch =>
      rw [hinstr] at hstorage
      cases hstorage
  | _ => rfl

/-- **What a live instruction names** is a symbol of its function or a global. -/
theorem named_cases {i : Nat} {x : Instruction} {var : Var}
    {storage : Model.Storage} (hx : (codeOf simple.body)[i]? = some x)
    (hstorage : x.storage? = some (var, storage)) :
    ∃ symbol, symbol.storage = storage ∧
      ((∃ name, var = .localVar name ∧ l.origin.symbols.find? name = some symbol) ∨
        ∃ module name, var = .globalVar (Model.qualify module name) ∧
          model.global? module name = some symbol) := by
  have hcode := l.code_of_storage hx hstorage
  obtain ⟨name, symbol, hsymbol, hkind⟩ := l.sourced _ (List.mem_of_getElem? hcode) var storage hstorage
  exact ⟨symbol, hkind, Flat.symbol_cases hsymbol⟩

end Lineage

namespace Stages.Member

variable {model : Model.Program} {c : Compilation} {s : Stages model c} {label : String}

/-- **Functions are framed with their own symbols**, if they are stored where their labels
say. -/
theorem Lineage.origin_eq_source {m : s.Member label} (l : m.Lineage) (h : model.Filed) :
    l.origin = m.source :=
  Except.ok.inj ((l.function_eq h).symm.trans m.source_eq)

/-- The label of a function stays. -/
theorem label_final (m : s.Member label) : m.final.label = label := by
  obtain ⟨l⟩ := m.exists_lineage
  obtain ⟨_, _, _, _, hfinal⟩ := Storage.anchor_eq_ok m.anchor_eq
  obtain ⟨_, _, hraised⟩ := m.raised_same
  have hsimple : m.simple.label = label := congrArg Flat.Function.label l.simple_eq
  have hframed := congrArg Flat.Function.label m.framing.frame_eq
  rw [hfinal, hraised]
  exact hframed.trans hsimple

/-- A local has a pinned slot in some file. -/
theorem local_address (m : s.Member label) {name : String} {address : Nat}
    (h : m.addressOf? (.localVar name) = some address) :
    ∃ file slot, m.framing.visit.scope.locals.find? name = some (.relative file slot) ∧
      slot < m.pins file ∧ address = m.address file slot := by
  obtain ⟨offset, hfind, haddress⟩ := Option.bind_eq_some_iff.mp h
  obtain ⟨file, slot, hframed, hlt, rfl⟩ := m.local_slot hfind
  cases haddress
  rw [m.framing.result.2.1] at hframed
  exact ⟨file, slot, hframed, hlt, rfl⟩

/-- A function is one of the program, if functions are stored where their labels say. -/
theorem source_mem (m : s.Member label) (hfiled : model.Filed) :
    ∃ module ∈ model.modules.values, m.source ∈ module.functions.values := by
  obtain ⟨l⟩ := m.exists_lineage
  rw [← l.origin_eq_source hfiled]
  exact l.mem

/-- **The cell of a variable.**  A variable that is read from a file is a pinned slot of the
function in that file, or a global. -/
theorem variable_cell (m : s.Member label) (hfiled : model.Filed) (hkeeps : m.source.KeepsResult)
    {i : Nat} {x : Instruction} {var : Var} {storage : Model.Storage} {file : File} {address : Nat}
    (hx : (codeOf m.simple.body)[i]? = some x) (hstorage : x.storage? = some (var, storage))
    (hfile : Storage.fileOf? storage = some file) (haddress : m.addressOf? var = some address) :
    (∃ name slot, var = .localVar name ∧ slot < m.pins file ∧ address = m.address file slot) ∨
      ∃ module name symbol, var = .globalVar (Model.qualify module name) ∧
        model.global? module name = some symbol ∧ symbol.storage = storage ∧
        c.layout.addresses.find? (Model.qualify module name) = some address := by
  obtain ⟨l⟩ := m.exists_lineage
  obtain ⟨symbol, rfl, ⟨name, rfl, hfind⟩ | ⟨module, name, rfl, hglobal⟩⟩ :=
    l.named_cases hx hstorage
  · rw [l.origin_eq_source hfiled] at hfind
    obtain ⟨slot, hslot⟩ := m.framing.local_file hfind hfile hkeeps
    obtain ⟨file', slot', hslot', hlt, rfl⟩ := m.local_address haddress
    rw [hslot] at hslot'
    cases hslot'
    exact .inl ⟨name, slot, rfl, hlt, rfl⟩
  · exact .inr ⟨module, name, symbol, rfl, hglobal, rfl, haddress⟩

/-- The cell is in the window of the function, or a global of the program has it as its address. -/
def Sees (m : s.Member label) (cell : File × Nat) : Prop :=
  (m.final.window cell.1).Holds cell.2 ∨ ∃ module name symbol,
    model.global? module name = some symbol ∧ Storage.fileOf? symbol.storage = some cell.1 ∧
      c.layout.addresses.find? (Model.qualify module name) = some cell.2

/-- The cell of a temporary is in the window. -/
theorem sees_of_temp (m : s.Member label) {i : Nat} {width : Width} {address : Nat}
    (h : m.Temp i width (.absolute address)) : m.Sees (width.file, address) := by
  obtain ⟨_, slot, _, hlt, heq⟩ := h
  cases heq
  exact .inl (m.holds_address hlt)

/-- That of a variable is in the window, or it is a global. Which of the two is settled by the name
alone: a symbol of the function hides a global. -/
theorem sees_of_variable (m : s.Member label) (hfiled : model.Filed)
    (hkeeps : m.source.KeepsResult) {i : Nat} {x : Instruction} {var : Var}
    {storage : Model.Storage} {file : File} {address : Nat}
    (hx : (codeOf m.simple.body)[i]? = some x) (hstorage : x.storage? = some (var, storage))
    (hfile : Storage.fileOf? storage = some file) (haddress : m.addressOf? var = some address) :
    m.Sees (file, address) := by
  rcases m.variable_cell hfiled hkeeps hx hstorage hfile haddress with
    ⟨_, slot, _, hlt, rfl⟩ | ⟨module, name, symbol, _, hglobal, rfl, hfind⟩
  · exact .inl (m.holds_address (Nat.lt_of_lt_of_le hlt (m.pins_le file)))
  · exact .inr ⟨module, name, symbol, hglobal, hfile, hfind⟩

end Stages.Member

end Stackless
