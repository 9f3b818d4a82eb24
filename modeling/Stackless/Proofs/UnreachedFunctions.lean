import Stackless.Proofs.LeavingOut
import Stackless.Proofs.TypedEmission

/-!
# Functions that are not reached

A function whose label is new, and which is not entered, may be added to a module
(`Model.Program.Admits`).  Nothing else depends on it:

* `Flat.Grows.ofModel` — calls mean functions that were there before, so the other functions are
  flattened as before;
* `Admits.uncalled` — none of them calls the new one, so it is in no tree;
* `Admits.build_eq` — the same forest, windows and addresses, or the same failure;
* `unreached_function_changes_nothing` — and the same assembly.
-/

namespace Stackless

namespace Table

variable {α : Type}

/-- An entry is placed between others, or in the place of one with its name. -/
theorem place_cases (name : String) (value : α) :
    ∀ entries : List (String × α), ∃ before after,
      place name value entries = before ++ (name, value) :: after ∧
        (entries = before ++ after ∨ ∃ old, entries = before ++ (name, old) :: after)
  | [] => ⟨[], [], rfl, .inl rfl⟩
  | (key, old) :: rest => by
    rw [place]
    split
    · exact ⟨[], _, rfl, .inl rfl⟩
    · split
      · rename_i heq
        exact ⟨[], rest, rfl, .inr ⟨old, by rw [heq]; rfl⟩⟩
      · obtain ⟨before, after, hplace, hentries⟩ := place_cases name value rest
        refine ⟨(key, old) :: before, after, by rw [hplace]; rfl, ?_⟩
        rcases hentries with hentries | ⟨other, hentries⟩
        · exact .inl (by rw [hentries]; rfl)
        · exact .inr ⟨other, by rw [hentries]; rfl⟩

/-- The entries around a new one. -/
theorem entries_insert_new {t : Table α} {name : String} (h : name ∉ t.keys) (value : α) :
    ∃ before after, t.entries = before ++ after ∧
      (t.insert name value).entries = before ++ (name, value) :: after := by
  obtain ⟨before, after, hplace, hentries | ⟨old, hentries⟩⟩ := place_cases name value t.entries
  · exact ⟨before, after, hentries, hplace⟩
  · refine absurd ?_ h
    rw [keys, hentries]
    simp

/-- The entries around one that is replaced. -/
theorem entries_insert_old {t : Table α} {name : String} {old : α} (h : t.find? name = some old)
    (value : α) : ∃ before after, t.entries = before ++ (name, old) :: after ∧
      (t.insert name value).entries = before ++ (name, value) :: after := by
  obtain ⟨before, after, hplace, hentries | ⟨other, hentries⟩⟩ := place_cases name value t.entries
  · have hmem := find?_eq_some.mp h
    have hascending : (before ++ (name, value) :: after).Pairwise fun a b => a.1 < b.1 :=
      hplace ▸ (t.insert name value).ascending
    obtain ⟨_, hafter, hbefore⟩ := List.pairwise_append.mp hascending
    rw [hentries, List.mem_append] at hmem
    rcases hmem with hmem | hmem
    · exact absurd (hbefore _ hmem _ List.mem_cons_self) (String.lt_irrefl _)
    · exact absurd ((List.pairwise_cons.mp hafter).1 _ hmem) (String.lt_irrefl _)
  · have hold := find?_eq_some.mpr (hentries ▸ List.mem_append_right _ List.mem_cons_self :
      (name, other) ∈ t.entries)
    rw [h] at hold
    cases hold
    exact ⟨before, after, hentries, hplace⟩

end Table

namespace Model

/-- The program with a function added to a module. -/
def Program.withFunction (p : Program) (name : String) (m : Module) (f : Function) : Program :=
  p.addModule name (m.addFunction f)

/-- The function can be added to a module of the program without being reached: its label is new,
and it is neither the entry nor a handler. -/
structure Program.Admits (p : Program) (name : String) (m : Module) (f : Function) : Prop where
  module_eq : p.modules.find? name = some m
  new_key : ∀ module ∈ p.modules.values, f.label ∉ module.functions.keys
  new_label : ∀ module ∈ p.modules.values, ∀ g ∈ module.functions.values, g.label ≠ f.label
  not_entry : p.entry ≠ f.label
  not_handler : ∀ handler ∈ p.vectors.handlers, handler.2 ≠ f.label

namespace Program.Admits

variable {p : Program} {name : String} {m : Module} {f : Function} (h : p.Admits name m f)

include h

/-- The modules around the one that the function is added to, and the functions around it. -/
theorem entries_eq : ∃ before after first last,
    p.modules.entries = before ++ (name, m) :: after ∧
    (p.withFunction name m f).modules.entries = before ++ (name, m.addFunction f) :: after ∧
    m.functions.entries = first ++ last ∧
    (m.addFunction f).functions.entries = first ++ (f.label, f) :: last := by
  obtain ⟨before, after, hold, hnew⟩ := Table.entries_insert_old h.module_eq (m.addFunction f)
  have hmem : m ∈ p.modules.values :=
    List.mem_map.mpr ⟨_, Table.find?_eq_some.mp h.module_eq, rfl⟩
  obtain ⟨first, last, hfirst, hlast⟩ := Table.entries_insert_new (h.new_key m hmem) f
  exact ⟨before, after, first, last, hold, hnew, hfirst, hlast⟩

/-- The functions around the one that is added. -/
theorem functions_eq : ∃ first last,
    (p.modules.values.flatMap fun m => m.functions.values) = first ++ last ∧
    ((p.withFunction name m f).modules.values.flatMap fun m => m.functions.values) =
      first ++ f :: last := by
  obtain ⟨before, after, first, last, hold, hnew, hfirst, hlast⟩ := h.entries_eq
  refine ⟨(before.flatMap fun e => e.2.functions.values) ++ first.map (·.2),
    last.map (·.2) ++ after.flatMap fun e => e.2.functions.values, ?_, ?_⟩
  · simp [Table.values, hold, hfirst, List.flatMap_map]
  · simp [Table.values, hnew, hlast, List.flatMap_map]

theorem globals_eq : Storage.globals (p.withFunction name m f) = Storage.globals p := by
  obtain ⟨before, after, _, _, hold, hnew, _, _⟩ := h.entries_eq
  rw [Storage.globals, Storage.globals, hold, hnew]
  simp [Module.addFunction]

theorem symbols_eq : ((p.withFunction name m f).modules.values.flatMap fun m => m.symbols.values) =
    p.modules.values.flatMap fun m => m.symbols.values := by
  obtain ⟨before, after, _, _, hold, hnew, _, _⟩ := h.entries_eq
  simp [Table.values, hold, hnew, Module.addFunction]

theorem keys_eq : (p.withFunction name m f).modules.keys = p.modules.keys := by
  obtain ⟨before, after, _, _, hold, hnew, _, _⟩ := h.entries_eq
  simp [Table.keys, hold, hnew]

/-- The symbols of a module are as before. -/
theorem find?_symbols (other : String) :
    ((p.withFunction name m f).modules.find? other).map Module.symbols =
      (p.modules.find? other).map Module.symbols := by
  rw [withFunction, addModule, Table.find?_insert]
  split
  · rename_i heq
    rw [heq, h.module_eq]
    rfl
  · rfl

/-- Other functions are found as before. -/
theorem function_eq {other : String} (hne : other ≠ f.label) :
    (p.withFunction name m f).function other = p.function other := by
  rw [function, function, withFunction, addModule, Table.find?_insert]
  split
  · rename_i m' hfound
    split at hfound
    · cases hfound
    · rw [hfound]
  · rename_i m' hfound
    split at hfound
    · rename_i heq
      cases hfound
      rw [heq, h.module_eq]
      dsimp only
      rw [Module.addFunction, Table.find?_insert_of_ne _ _ hne]
    · rw [hfound]

/-- The new label means no function of the program before. -/
theorem function_new (g : Function) : p.function f.label ≠ .ok g := by
  intro hfound
  unfold function at hfound
  split at hfound
  · cases hfound
  · rename_i m' hm'
    split at hfound
    · cases hfound
    · rename_i g' hg'
      have hmem : m' ∈ p.modules.values := List.mem_map.mpr ⟨_, Table.find?_eq_some.mp hm', rfl⟩
      exact h.new_key m' hmem (Calls.mem_keys_of_find? hg')

/-- Globals are found as before. -/
theorem global?_eq (module own : String) :
    (p.withFunction name m f).global? module own = p.global? module own := by
  have hglobal : ∀ q : Program, q.global? module own =
      ((q.modules.find? module).map Module.symbols).bind (·.find? own) := fun q => by
    unfold global?
    cases q.modules.find? module with
    | none | some => rfl
  rw [hglobal, hglobal, h.find?_symbols]

/-- Labels of symbols mean what they meant before. -/
theorem symbol_eq (g : Function) (label : String) :
    (p.withFunction name m f).symbol g label = p.symbol g label := by
  unfold symbol
  split
  · rw [h.global?_eq]
  · rename_i module own _
    have hsymbols := h.find?_symbols module
    cases hold : p.modules.find? module with
    | none =>
        rw [hold, Option.map_none, Option.map_eq_none_iff] at hsymbols
        rw [hsymbols]
    | some m' =>
        rw [hold, Option.map_some, Option.map_eq_some_iff] at hsymbols
        obtain ⟨m'', hm'', hsymbols⟩ := hsymbols
        rw [hm'']
        dsimp only
        rw [hsymbols]

end Program.Admits

end Model

namespace Flat

open Model (Expr Stmt)

section Growing

variable {program program' : Model.Program} {f : Model.Function}

/-- Functions that are found in a program are found in another, and labels of symbols mean the
same in both. -/
structure Grows (program program' : Model.Program) : Prop where
  function : ∀ label callee, program.function label = .ok callee →
    program'.function label = .ok callee
  symbol : ∀ f label, program'.symbol f label = program.symbol f label

namespace Grows

variable (h : Grows program program')

include h

/-- A name means the same in a program that grows. -/
theorem context_symbol (label : String) :
    (Context.mk program' f).symbol label = (Context.mk program f).symbol label := by
  rw [Context.symbol, Context.symbol, h.symbol]

/-- A call that means a function means it in a program that grows. -/
theorem callee {label : String} {found : Nat} {callee : Model.Function}
    (hcallee : (Context.mk program f).callee label found = .ok callee) :
    (Context.mk program' f).callee label found = .ok callee := by
  obtain ⟨callee', hfound, hcount⟩ := bind_eq_ok.mp hcallee
  exact bind_eq_ok.mpr ⟨callee', h.function label callee' hfound, hcount⟩

end Grows

mutual

/-- **Expressions are evaluated as before** in a program that grows. -/
theorem Grows.evaluate (h : Grows program program') :
    ∀ (e : Expr) {start : Nat} {out : Evaluation},
      evaluate ⟨program, f⟩ start e = .ok out → evaluate ⟨program', f⟩ start e = .ok out
  | .int _, _, _, hout | .bool _, _, _, hout => hout
  | .var label, start, out, hout => by
    rw [Flat.evaluate] at hout ⊢
    rwa [h.context_symbol]
  | .index label index, start, out, hout => by
    rw [Flat.evaluate] at hout ⊢
    obtain ⟨⟨var, symbol⟩, hsymbol, hout⟩ := bind_eq_ok.mp hout
    obtain ⟨array, harray, hout⟩ := bind_eq_ok.mp hout
    obtain ⟨value, hvalue, hout⟩ := bind_eq_ok.mp hout
    exact bind_eq_ok.mpr ⟨_, h.context_symbol label ▸ hsymbol, bind_eq_ok.mpr ⟨array, harray,
      bind_eq_ok.mpr ⟨value, h.evaluate index hvalue, hout⟩⟩⟩
  | .unary op operand, start, out, hout => by
    rw [Flat.evaluate] at hout ⊢
    obtain ⟨value, hvalue, hout⟩ := bind_eq_ok.mp hout
    exact bind_eq_ok.mpr ⟨value, h.evaluate operand hvalue, hout⟩
  | .binary op lhs rhs, start, out, hout | .compare op lhs rhs, start, out, hout => by
    rw [Flat.evaluate] at hout ⊢
    obtain ⟨left, hleft, hout⟩ := bind_eq_ok.mp hout
    obtain ⟨right, hright, hout⟩ := bind_eq_ok.mp hout
    exact bind_eq_ok.mpr ⟨left, h.evaluate lhs hleft,
      bind_eq_ok.mpr ⟨right, h.evaluate rhs hright, hout⟩⟩
  | .call function arguments, start, out, hout => by
    rw [Flat.evaluate] at hout ⊢
    obtain ⟨callee, hcallee, hout⟩ := bind_eq_ok.mp hout
    obtain ⟨values, hvalues, hout⟩ := bind_eq_ok.mp hout
    exact bind_eq_ok.mpr ⟨callee, h.callee hcallee,
      bind_eq_ok.mpr ⟨values, h.evaluateAll arguments hvalues, hout⟩⟩

theorem Grows.evaluateAll (h : Grows program program') :
    ∀ (es : List Expr) {start : Nat} {out : List Instruction × List Nat},
      evaluateAll ⟨program, f⟩ start es = .ok out → evaluateAll ⟨program', f⟩ start es = .ok out
  | [], _, _, hout => hout
  | e :: rest, start, out, hout => by
    rw [Flat.evaluateAll] at hout ⊢
    obtain ⟨value, hvalue, hout⟩ := bind_eq_ok.mp hout
    obtain ⟨others, hothers, hout⟩ := bind_eq_ok.mp hout
    exact bind_eq_ok.mpr ⟨value, h.evaluate e hvalue,
      bind_eq_ok.mpr ⟨others, h.evaluateAll rest hothers, hout⟩⟩

end

namespace Grows

variable (h : Grows program program')

include h

theorem evaluatePlace {e : Expr} {start : Nat} {out : Evaluation}
    (hout : evaluatePlace ⟨program, f⟩ start e = .ok out) :
    evaluatePlace ⟨program', f⟩ start e = .ok out := by
  unfold Flat.evaluatePlace at hout ⊢
  split at hout
  · rwa [h.context_symbol]
  · obtain ⟨⟨var, symbol⟩, hsymbol, hout⟩ := bind_eq_ok.mp hout
    obtain ⟨array, harray, hout⟩ := bind_eq_ok.mp hout
    obtain ⟨value, hvalue, hout⟩ := bind_eq_ok.mp hout
    exact bind_eq_ok.mpr ⟨_, h.context_symbol _ ▸ hsymbol, bind_eq_ok.mpr ⟨array, harray,
      bind_eq_ok.mpr ⟨value, h.evaluate _ hvalue, hout⟩⟩⟩
  · cases hout

/-- Simple statements have the same code. -/
theorem simpleCode {stmt : Stmt} {start : Nat} {code : List Instruction}
    (hcode : simpleCode ⟨program, f⟩ start stmt = .ok code) :
    simpleCode ⟨program', f⟩ start stmt = .ok code := by
  cases stmt with
  | assign target op value =>
      obtain ⟨value', hvalue, hcode⟩ := bind_eq_ok.mp hcode
      obtain ⟨place, hplace, hcode⟩ := bind_eq_ok.mp hcode
      exact bind_eq_ok.mpr ⟨value', h.evaluate value hvalue,
        bind_eq_ok.mpr ⟨place, h.evaluatePlace hplace, hcode⟩⟩
  | call function arguments =>
      obtain ⟨callee, hcallee, hcode⟩ := bind_eq_ok.mp hcode
      obtain ⟨values, hvalues, hcode⟩ := bind_eq_ok.mp hcode
      exact bind_eq_ok.mpr ⟨callee, h.callee hcallee,
        bind_eq_ok.mpr ⟨values, h.evaluateAll arguments hvalues, hcode⟩⟩
  | ret value =>
      cases value with
      | none => exact hcode
      | some value =>
          obtain ⟨value', hvalue, hcode⟩ := bind_eq_ok.mp hcode
          exact bind_eq_ok.mpr ⟨value', h.evaluate value hvalue, hcode⟩
  | timer value =>
      obtain ⟨value', hvalue, hcode⟩ := bind_eq_ok.mp hcode
      exact bind_eq_ok.mpr ⟨value', h.evaluate value hvalue, hcode⟩
  | _ => exact hcode

/-- **Statements follow the same rules.** -/
theorem flattens {loop : Option LoopMarkers} {position : Option Position}
    {start markers final : Nat} {stmt : Stmt} {ops : List Op}
    (hops : Flattens ⟨program, f⟩ loop position start markers stmt ops final) :
    Flattens ⟨program', f⟩ loop position start markers stmt ops final := by
  induction hops with
  | nil => exact .nil
  | cons _ _ ihfirst ihothers => exact .cons ihfirst ihothers
  | exit hvalue hexit htarget => exact .exit (h.evaluate _ hvalue) hexit htarget
  | exitElse hvalue hexit htarget _ ih => exact .exitElse (h.evaluate _ hvalue) hexit htarget ih
  | choose hvalue hexit _ ih => exact .choose (h.evaluate _ hvalue) hexit ih
  | chooseElse hvalue hexit _ _ ihbody ihothers =>
      exact .chooseElse (h.evaluate _ hvalue) hexit ihbody ihothers
  | loop _ ih => exact .loop ih
  | breakLoop htarget => exact .breakLoop htarget
  | continueLoop htarget => exact .continueLoop htarget
  | simple hsimple hcode => exact .simple hsimple (h.simpleCode hcode)

/-- **A function is flattened as before** in a program that grows. A name that was found before is
found again, and what was not found made the flattening fail. -/
theorem ofModel {g : Function} (hg : Function.ofModel program f = .ok g) :
    Function.ofModel program' f = .ok g := by
  obtain ⟨body, hbody, hg⟩ := bind_eq_ok.mp hg
  obtain ⟨segment, hsegment, hbody⟩ := bind_eq_ok.mp hbody
  have hflattens := (h.flattens (flattens_of_flattenAll _ hsegment)).flatten_eq
  rw [flatten] at hflattens
  exact bind_eq_ok.mpr ⟨body, bind_eq_ok.mpr ⟨segment, hflattens, hbody⟩, hg⟩

end Grows

end Growing

/-- Adds the flat form of a function. -/
def flattenInto (program : Model.Program) (flat : Program) (f : Model.Function) :
    Except (Located CompileError) Program := do
  let function ← Function.ofModel program f
  return flat.insert f.label function

/-- Functions are flattened as before beside one that is left out. -/
theorem Grows.flattenInto {program program' : Model.Program} (h : Grows program program')
    {label : String} :
    ∀ {fs : List Model.Function} {flat flat' : Program} {out : Program},
      (∀ f ∈ fs, f.label ≠ label) → flat = flat'.erase label →
      fs.foldlM (flattenInto program) flat = .ok out →
      ∃ out', fs.foldlM (Flat.flattenInto program') flat' = .ok out' ∧ out = out'.erase label
  | [], _, flat', _, _, hflat, hout => by
    cases hout
    exact ⟨flat', rfl, hflat⟩
  | f :: rest, flat, flat', out, hlabels, hflat, hout => by
    obtain ⟨next, hnext, hout⟩ := bind_eq_ok.mp hout
    obtain ⟨g, hg, hnext⟩ := bind_eq_ok.mp hnext
    cases hnext
    have hinsert : flat.insert f.label g = (flat'.insert f.label g).erase label := by
      rw [Table.erase_insert_of_ne _ _ (hlabels f List.mem_cons_self), hflat]
    obtain ⟨out', hout', hsame⟩ := h.flattenInto
      (fun f hf => hlabels f (List.mem_cons_of_mem _ hf)) hinsert hout
    exact ⟨out', bind_eq_ok.mpr ⟨_, bind_eq_ok.mpr ⟨g, h.ofModel hg, rfl⟩, hout'⟩, hsame⟩

end Flat

namespace Model.Program.Admits

variable {p : Program} {name : String} {m : Module} {f : Function} (h : p.Admits name m f)

include h

/-- Programs grow by functions with new labels. -/
theorem grows : Flat.Grows p (p.withFunction name m f) where
  function := fun label callee hcallee => by
    have hne : label ≠ f.label := by
      rintro rfl
      exact h.function_new callee hcallee
    rwa [h.function_eq hne]
  symbol := h.symbol_eq

/-- **All other functions are flattened as before.** -/
theorem flat_eq {flat flat' : Flat.Program} (hflat : Flat.Program.ofModel p = .ok flat)
    (hflat' : Flat.Program.ofModel (p.withFunction name m f) = .ok flat') :
    flat = flat'.erase f.label := by
  obtain ⟨first, last, hold, hnew⟩ := h.functions_eq
  have hlabels : ∀ g ∈ first ++ last, g.label ≠ f.label := by
    intro g hg
    rw [← hold, List.mem_flatMap] at hg
    obtain ⟨module, hmodule, hg⟩ := hg
    exact h.new_label module hmodule g hg
  rw [Flat.Program.ofModel, hold, List.foldlM_append] at hflat
  rw [Flat.Program.ofModel, hnew, List.foldlM_append] at hflat'
  obtain ⟨mid, hmid, hflat⟩ := bind_eq_ok.mp hflat
  obtain ⟨mid', hmid', hflat'⟩ := bind_eq_ok.mp hflat'
  obtain ⟨next, hnext, hflat'⟩ := bind_eq_ok.mp hflat'
  obtain ⟨g, _, hnext⟩ := bind_eq_ok.mp hnext
  cases hnext
  obtain ⟨out, hout, hsame⟩ := h.grows.flattenInto
    (fun g hg => hlabels g (List.mem_append_left _ hg)) (Table.ext_find? fun _ => by
      rw [Table.find?_erase, Table.find?_empty]
      split <;> rfl) hmid
  cases hout.symm.trans hmid'
  obtain ⟨out, hout, hsame⟩ := h.grows.flattenInto
    (fun g hg => hlabels g (List.mem_append_right _ hg))
    (hsame.trans (Table.erase_insert_self _ _ g).symm) hflat
  cases hout.symm.trans hflat'
  exact hsame

end Model.Program.Admits

namespace Flat

/-- A call means a function of the program. -/
def Meant (ctx : Context) (x : Instruction) : Prop :=
  ∀ label result, x = .call label result → ∃ callee, ctx.program.function label = .ok callee

/-- Calls mean functions wherever they are made. -/
theorem nameWise_meant (ctx : Context) (indexed : List String) :
    NameWise ctx indexed (Meant ctx) where
  plain := fun _ _ hcall label result heq => absurd heq (hcall label result)
  call := by
    rintro label callee result hcallee _ _ ⟨⟩
    exact ⟨callee, hcallee⟩
  read := by
    intro name var symbol _ label result heq
    unfold readVar at heq
    split at heq
    all_goals try cases heq
    split at heq
    · cases heq
    · unfold literalOf at heq
      split at heq
      all_goals cases heq
  write := by
    intro name var symbol place _ hwrite label result heq
    have hstorage := storage?_writeVar? hwrite
    rw [heq] at hstorage
    cases hstorage
  base := by
    rintro name _ var symbol _ _ hstorage label result rfl
    cases hstorage

end Flat

namespace Lineage

variable {model : Model.Program} {label : String} {simple : Flat.Function}
  (l : Lineage model label simple)

include l

/-- **A call that is left means a function of the program.** -/
theorem callee_found {call : String × Option Position} (h : call ∈ simple.calls) :
    ∃ callee, model.function call.1 = .ok callee := by
  obtain ⟨i, result, hx⟩ := Flat.mem_calls_iff.mp (List.mem_map_of_mem (f := Prod.fst) h)
  obtain ⟨op, hop, hinstr⟩ := Flat.exists_of_codeOf_getElem? hx
  have hcode := l.drawn.plain hop (by rw [hinstr]; nofun) (by rw [hinstr]; rfl)
  exact (Flat.nameWise_meant _ (l.origin.statements.flatMap Model.Stmt.indexed)).pieces
    (fun _ hstmt _ hlabel => List.mem_flatMap.mpr ⟨_, hstmt, hlabel⟩) l.pieces _
    (List.mem_of_getElem? hcode) _ result hinstr

end Lineage

/-- A compilation without a function. -/
def Compilation.without (c : Compilation) (label : String) : Compilation :=
  { c with program := c.program.erase label }

namespace Model.Program.Admits

variable {p : Program} {name : String} {m : Module} {f : Function} (h : p.Admits name m f)

include h

/-- No function that was there before calls the new one, since a callee has to be found for a call
to be flattened. -/
theorem uncalled {flat simple : Flat.Program} (hflat : Flat.Program.ofModel p = .ok flat)
    (hsimple : flat.simplify = .ok simple) {simple' : Flat.Program}
    (hsame : simple = simple'.erase f.label) : Calls.Uncalled simple' f.label := by
  intro other g hne hg call hcall heq
  rw [← Table.find?_erase_of_ne simple' hne, ← hsame] at hg
  obtain ⟨l⟩ := exists_lineage hflat hsimple hg
  obtain ⟨callee, hcallee⟩ := l.callee_found hcall
  exact h.function_new callee (heq ▸ hcallee)

/-- The forests of the two programs are built alike. -/
theorem forest_eq (simple : Flat.Program) :
    Calls.Forest.build (p.withFunction name m f) simple = Calls.Forest.build p simple := by
  have hcontains : (p.withFunction name m f).modules.contains p.name = p.modules.contains p.name := by
    have hsymbols := congrArg Option.isSome (h.find?_symbols p.name)
    rwa [Option.isSome_map, Option.isSome_map] at hsymbols
  unfold Calls.Forest.build
  rw [show (p.withFunction name m f).name = p.name from rfl, hcontains]
  rfl

theorem placeConstants_eq :
    Storage.placeConstants p = Storage.placeConstants (p.withFunction name m f) := by
  rw [Storage.placeConstants, Storage.placeConstants, h.globals_eq]
  rfl

/-- Variables are placed alike. -/
theorem placeVariables_eq (forest : Calls.Forest) (addresses : Table Nat) :
    Storage.placeVariables p forest addresses =
      Storage.placeVariables (p.withFunction name m f) forest addresses := by
  have hmodule : ∀ q : Program, ∀ module, Storage.moduleGlobals q module =
      (((q.modules.find? module).map Module.symbols).map fun symbols =>
        symbols.entries.map fun s => (qualify module s.1, s.2)).getD [] := by
    intro q module
    unfold Storage.moduleGlobals
    cases q.modules.find? module with
    | none | some => rfl
  have hglobals : Storage.moduleGlobals (p.withFunction name m f) = Storage.moduleGlobals p := by
    funext module
    rw [hmodule, hmodule, h.find?_symbols]
  have horder : Storage.moduleOrder (p.withFunction name m f) forest =
      Storage.moduleOrder p forest := by
    rw [Storage.moduleOrder, Storage.moduleOrder, h.keys_eq]
  rw [Storage.placeVariables, Storage.placeVariables, horder, hglobals]
  rfl

/-- **Builds of the two programs differ in the new function only**, with all their errors and traps:
what the new function has by itself comes into no phase after its simplification. -/
theorem build_eq (hflat : ∃ flat, Flat.Program.ofModel p = .ok flat)
    (hflat' : ∃ flat, Flat.Program.ofModel (p.withFunction name m f) = .ok flat) :
    build p = (build (p.withFunction name m f)).map (·.without f.label) := by
  obtain ⟨flat, hflat⟩ := hflat
  obtain ⟨flat', hflat'⟩ := hflat'
  obtain ⟨simple, hsimple⟩ := Flat.exists_simplified hflat
  obtain ⟨simple', hsimple'⟩ := Flat.exists_simplified hflat'
  have hsame : simple = simple'.erase f.label :=
    Table.erase_mapM hsimple' (h.flat_eq hflat hflat' ▸ hsimple)
  have hforest : Calls.Forest.build p simple =
      Calls.Forest.build (p.withFunction name m f) simple' := by
    rw [h.forest_eq, hsame, Calls.Forest.build_erase (h.uncalled hflat hsimple hsame) h.not_entry
      h.not_handler]
  unfold build
  rw [hflat, hflat']
  show (flat.simplify >>= _) = Except.map _ (flat'.simplify >>= _)
  rw [hsimple, hsimple']
  show (orFail (Calls.Forest.build p simple) >>= _) =
    Except.map _ (orFail (Calls.Forest.build (p.withFunction name m f) simple') >>= _)
  refine bind_eq_map (congrArg orFail hforest) fun forest hbuilt => ?_
  have hrooted := Calls.Forest.rooted_of_build (hforest.trans (orFail_eq_ok.mp hbuilt))
  rw [hsame] at hrooted ⊢
  exact map_bind_eq_map (Storage.allocate_erase hrooted (fun _ => h.function_eq)
    h.placeConstants_eq (h.placeVariables_eq forest)) fun _ => rfl

/-- The parts of the output before the sections are written alike. -/
theorem emit_eq (q : Flat.Program) (layout : Storage.Layout) :
    Assembly.emit (p.withFunction name m f) q layout = Assembly.emit p q layout := by
  have hconstants : Assembly.constantLines (p.withFunction name m f) = Assembly.constantLines p := by
    rw [Assembly.constantLines, Assembly.constantLines, h.symbols_eq]
  rw [Assembly.emit, Assembly.emit, hconstants]
  rfl

end Model.Program.Admits

/-- **A build is written alike without a function that it does not reach.**  Sections are written in
the order of the layout, and no op of theirs names the function. -/
theorem Stages.emit_without {model : Model.Program} {c : Compilation} {label : String}
    (s : Stages model (c.without label)) :
    Assembly.emit model (c.program.erase label) c.layout = Assembly.emit model c.program c.layout := by
  have hne : ∀ other ∈ c.layout.order, other ≠ label := by
    rintro other hother rfl
    obtain ⟨m⟩ := s.exists_member (s.order_eq ▸ hother)
    have hfinal : (c.program.erase other).find? other = some m.final := m.final_eq
    rw [Table.find?_erase, if_pos rfl] at hfinal
    cases hfinal
  unfold Assembly.emit
  rw [Assembly.sections_erase fun other hother => ⟨hne other hother, fun f hf => ?_⟩]
  obtain ⟨m⟩ := s.exists_member (s.order_eq ▸ hother)
  have hfinal : (c.program.erase label).find? other = some m.final := m.final_eq
  rw [Table.find?_erase_of_ne _ (hne other hother), hf] at hfinal
  rw [Option.some.inj hfinal]
  refine ⟨by rw [m.label_final]; exact hne other hother, fun op hop callee hcallee => hne callee ?_⟩
  obtain ⟨i, hi⟩ := List.mem_iff_getElem?.mp hop
  have hx := Flat.codeOf_getElem? hi
  cases hinstr : op.instruction with
  | call function result =>
      rw [hinstr] at hx hcallee
      cases hcallee
      exact m.call_reached hother hx
  | parameter function own value =>
      rw [hinstr] at hx hcallee
      cases hcallee
      obtain ⟨k, result, hcall⟩ := m.exists_call_of_parameter hx
      exact m.call_reached hother hcall
  | _ =>
      rw [hinstr] at hcallee
      cases hcallee

/-- **A function that is not reached changes nothing else.**  A function with a new label, which is
neither the entry nor a handler, is added to a module, and both programs can be flattened.  Then
both builds fail alike, or give the same forest, the same layout, and the same windows, locals
and offsets for every other function; and the same assembly is written. -/
theorem unreached_function_changes_nothing {model : Model.Program} {name : String}
    {module : Model.Module} {f : Model.Function} (h : model.Admits name module f)
    (hflat : ∃ flat, Flat.Program.ofModel model = .ok flat)
    (hflat' : ∃ flat, Flat.Program.ofModel (model.withFunction name module f) = .ok flat) :
    build model = (build (model.withFunction name module f)).map (·.without f.label) ∧
      compile (model.withFunction name module f) = compile model := by
  have hbuild := h.build_eq hflat hflat'
  refine ⟨hbuild, ?_⟩
  cases hnew : build (model.withFunction name module f) with
  | error e =>
      rw [hnew] at hbuild
      rw [compile, compile, hnew, hbuild]
      rfl
  | ok c =>
      rw [hnew] at hbuild
      obtain ⟨s⟩ := stages_of_build hbuild
      rw [compile, compile, hnew, hbuild]
      show Assembly.Emission.andThen ⟨[], .ok c⟩ _ = Assembly.Emission.andThen ⟨[], .ok (c.without f.label)⟩ _
      unfold Assembly.Emission.andThen
      dsimp only [Compilation.emit]
      rw [h.emit_eq, ← s.emit_without]
      rfl

/-- A module whose entry calls a function, with a handler and a counter. -/
def tallied : Model.Module :=
  let entry : Model.Function :=
    ({ label := "demo.main" } : Model.Function).addSymbol "x" .word |>.withBody [.call "f" []]
  let f : Model.Function := ({ label := "demo.f" } : Model.Function).addSymbol "y" .word |>.withBody
    [.assign (.var "y") (some .add) (.var "count")]
  let tick : Model.Function := { label := "demo.tick", isr := true }
  ((({} : Model.Module).addSymbol "count" .word).addFunction entry).addFunction f
    |>.addFunction tick

/-- The program of `tallied`, with the handler at level 6. -/
def tally : Model.Program :=
  { name := "demo", modules := Table.empty.insert "demo" tallied
    vectors := ⟨(List.replicate 15 none).set 5 (some "demo.tick"), rfl⟩ }

/-- A function that calls itself and another one: it could not be reached. -/
def spare : Model.Function :=
  (({ label := "demo.spare" } : Model.Function).addSymbol "z" .word).withBody
    [.call "spare" [], .call "f" []]

/-- `tally` is written alike with `spare`, although no entry point may reach a function that calls
itself. -/
theorem unreached_function_changes_nothing_tally :
    tally.Admits "demo" tallied spare ∧ (compile tally).outcome = .ok () ∧
      compile (tally.withFunction "demo" tallied spare) = compile tally := by
  have hadmits : tally.Admits "demo" tallied spare :=
    { module_eq := rfl
      new_key := by decide +kernel
      new_label := by decide +kernel
      not_entry := by decide +kernel
      not_handler := by decide +kernel }
  have hflat : (Flat.Program.ofModel tally).toOption.isSome = true := by decide +kernel
  have hflat' : (Flat.Program.ofModel (tally.withFunction "demo" tallied spare)).toOption.isSome =
      true := by decide +kernel
  obtain ⟨flat, hflat⟩ := Option.isSome_iff_exists.mp hflat
  obtain ⟨flat', hflat'⟩ := Option.isSome_iff_exists.mp hflat'
  have hok : (compile tally).outcome.toOption = some () := by decide +kernel
  exact ⟨hadmits, toOption_eq_some.mp hok, (unreached_function_changes_nothing hadmits
    ⟨flat, toOption_eq_some.mp hflat⟩ ⟨flat', toOption_eq_some.mp hflat'⟩).2⟩

end Stackless
