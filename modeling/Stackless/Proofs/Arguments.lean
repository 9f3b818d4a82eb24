import Stackless.Proofs.TypedEmission
import Stackless.Proofs.WellFormedness

/-!
# Arguments of the kinds of their parameters

For what is passed to functions it does not matter how the rest of a program is typed.  In a
program that is typed as to its arguments (`ArgumentTyped`) every parameter is a symbol in one of
the files, and every argument has the width of that file; the width of an expression is a matter
of its outermost operator (`width?`).

Then in flat code every parameter is supplied with a value of its file (`Pieces.supplies`), and in
the end the parameters of a call stand right before it, each with such a value
(`Member.call_site`, `Member.supplied`).
-/

namespace Stackless

open Flat (Op Instruction File Width Context Evaluation Gives lookIn resultWidth mathWidth codeOf)

namespace Model

/-- The width of the value of an expression, if it has one. A variable has the width in which it is
read, and a call that of what its callee returns, if it returns anything. -/
def width? (ctx : Context) : Expr → Option Width
  | .int _ => some .word
  | .bool _ => some .bit
  | .var label =>
    match ctx.symbol label with
    | .ok (var, symbol) => some (Flat.readVar var symbol).width
    | .error _ => none
  | .index _ _ => some .word
  | .unary op _ | .binary op _ _ => some (mathWidth op)
  | .compare _ _ _ => some .bit
  | .call function _ =>
    match ctx.program.function (ctx.calleeLabel function) with
    | .ok callee => callee.returns.map resultWidth
    | .error _ => none

mutual

/-- The calls in an expression, each with its arguments, from the outside in. Calls among the
arguments of a call come behind it. -/
def Expr.sites : Expr → List (String × List Expr)
  | .index _ index => index.sites
  | .unary _ operand => operand.sites
  | .binary _ lhs rhs | .compare _ lhs rhs => lhs.sites ++ rhs.sites
  | .call function arguments => (function, arguments) :: sitesAll arguments
  | .int _ | .bool _ | .var _ => []

/-- The calls in expressions. -/
def sitesAll : List Expr → List (String × List Expr)
  | [] => []
  | e :: rest => e.sites ++ sitesAll rest

end

/-- The calls in the expressions of a statement, itself included. -/
def Stmt.sites : Stmt → List (String × List Expr)
  | .branch condition _ _ => condition.sites
  | .assign target _ value => value.sites ++ target.sites
  | .call function arguments => (function, arguments) :: sitesAll arguments
  | .ret (some value) | .timer value => value.sites
  | _ => []

/-- The file in which a function keeps a parameter: that of its symbol, which need not be the one
that its type would suggest. -/
def Function.fileOf? (f : Function) (p : Parameter) : Option File :=
  (f.symbols.find? p.name).bind fun symbol => Storage.fileOf? symbol.storage

/-- The arguments of a call are for the files in which the callee keeps its parameters. -/
def Fills (ctx : Context) (site : String × List Expr) : Prop :=
  match ctx.program.function (ctx.calleeLabel site.1) with
  | .ok callee => ∀ pair ∈ callee.parameters.zip site.2,
      (width? ctx pair.2).map Width.file = callee.fileOf? pair.1
  | .error _ => True

instance (ctx : Context) (site : String × List Expr) : Decidable (Fills ctx site) := by
  unfold Fills
  split <;> infer_instance

/-- A function that is typed as to its arguments: its parameters have different names and are
symbols of its own, and where it calls a function the arguments are of the kinds of the
parameters. -/
structure Function.ArgumentTyped (program : Program) (f : Function) : Prop where
  distinct : (f.parameters.map (·.name)).Nodup
  receives : ∀ p ∈ f.parameters, f.Receives p
  fills : ∀ stmt ∈ f.statements, ∀ site ∈ stmt.sites, Fills ⟨program, f⟩ site

instance (program : Program) (f : Function) : Decidable (f.ArgumentTyped program) :=
  decidable_of_iff ((f.parameters.map (·.name)).Nodup ∧ (∀ p ∈ f.parameters, f.Receives p) ∧
      ∀ stmt ∈ f.statements, ∀ site ∈ stmt.sites, Fills ⟨program, f⟩ site)
    ⟨fun ⟨h1, h2, h3⟩ => ⟨h1, h2, h3⟩, fun ⟨h1, h2, h3⟩ => ⟨h1, h2, h3⟩⟩

/-- A program in which all functions are typed as to their arguments. Nothing is asked of their
statements otherwise: operators and assignments may still mix words and bits. -/
def Program.ArgumentTyped (program : Program) : Prop :=
  ∀ module ∈ program.modules.values, ∀ f ∈ module.functions.values, f.ArgumentTyped program

instance (program : Program) : Decidable program.ArgumentTyped :=
  inferInstanceAs (Decidable (∀ module ∈ program.modules.values,
    ∀ f ∈ module.functions.values, f.ArgumentTyped program))

end Model

namespace Flat

open Model (Expr Stmt Symbol)

/-- A parameter gets a value for the file in which the callee keeps it. -/
def Supplied (program : Model.Program) (look : Nat → Option Instruction) (x : Instruction) : Prop :=
  ∀ function name value, x = .parameter function name value →
    ∃ callee p kind, program.function function = .ok callee ∧ p ∈ callee.parameters ∧
      p.name = name ∧ callee.fileOf? p = some kind.file ∧ Gives look value kind

theorem supplied_of_plain {program : Model.Program} {x : Instruction} (h : x.isParameter = false)
    (look : Nat → Option Instruction) : Supplied program look x := by
  rintro function name value rfl
  cases h

theorem steady_supplied (program : Model.Program) : Steady (Supplied program) := by
  intro look look' x h hlook function name value hx
  obtain ⟨callee, p, kind, hcallee, hp, hname, hfile, y, hy, hkind⟩ := h function name value hx
  exact ⟨callee, p, kind, hcallee, hp, hname, hfile, y, hlook _ _ hy, hkind⟩

/-- **Code in which all parameters are supplied.** -/
def Supplies (program : Model.Program) (start : Nat) (code : List Instruction) : Prop :=
  ∀ x ∈ code, Supplied program (lookIn start code) x

namespace Supplies

variable {program : Model.Program} {start : Nat} {xs ys : List Instruction} {x : Instruction}

theorem of_plain (h : ∀ x ∈ xs, x.isParameter = false) : Supplies program start xs :=
  fun x hx => supplied_of_plain (h x hx) _

theorem nil : Supplies program start [] :=
  of_plain (by simp)

theorem single (h : x.isParameter = false) : Supplies program start [x] :=
  of_plain fun _ hmem => List.mem_singleton.mp hmem ▸ h

theorem append (hx : Supplies program start xs) (hy : Supplies program (start + xs.length) ys) :
    Supplies program start (xs ++ ys) :=
  (steady_supplied program).append hx hy

/-- An instruction that is no parameter behind the code. -/
theorem snoc (hx : Supplies program start xs) (h : x.isParameter = false) :
    Supplies program start (xs ++ [x]) :=
  hx.append (single h)

end Supplies

section Expressions

variable {ctx : Context}

theorem isParameter_of_isBase {x : Instruction} (h : x.isBase = true) : x.isParameter = false := by
  cases x with
  | parameter => cases h
  | _ => rfl

/-- **The value of an expression is of its width.**  What is evaluated without errors has a width,
and the instruction that gives its value gives one of that width. -/
theorem kind?_of_evaluate {e : Expr} {start : Nat} {out : Evaluation}
    (h : evaluate ctx start e = .ok out) :
    ∃ kind, Model.width? ctx e = some kind ∧ out.result.kind? = some kind := by
  cases e with
  | int value | bool value =>
      cases h
      exact ⟨_, rfl, rfl⟩
  | var label =>
      obtain ⟨⟨var, symbol⟩, hsymbol, h⟩ := bind_eq_ok.mp h
      cases h
      refine ⟨_, by rw [Model.width?, hsymbol], ?_⟩
      unfold readVar
      cases symbol.storage with
      | rom =>
          dsimp only
          split
          · rfl
          · unfold literalOf
            split
            all_goals rfl
      | _ => rfl
  | index label index =>
      obtain ⟨⟨var, symbol⟩, _, h⟩ := bind_eq_ok.mp h
      obtain ⟨⟨array, space⟩, _, h⟩ := bind_eq_ok.mp h
      obtain ⟨value, _, h⟩ := bind_eq_ok.mp h
      cases h
      exact ⟨_, rfl, rfl⟩
  | unary op operand =>
      obtain ⟨value, _, h⟩ := bind_eq_ok.mp h
      cases h
      exact ⟨_, rfl, rfl⟩
  | binary op lhs rhs | compare op lhs rhs =>
      obtain ⟨left, _, h⟩ := bind_eq_ok.mp h
      obtain ⟨right, _, h⟩ := bind_eq_ok.mp h
      cases h
      exact ⟨_, rfl, rfl⟩
  | call function arguments =>
      obtain ⟨callee, hcallee, h⟩ := bind_eq_ok.mp h
      obtain ⟨⟨code, refs⟩, _, h⟩ := bind_eq_ok.mp h
      cases hreturns : callee.returns with
      | none =>
          rw [hreturns] at h
          cases h
      | some type =>
          rw [hreturns] at h
          cases h
          refine ⟨resultWidth type, ?_, rfl⟩
          rw [Model.width?, callee_eq_ok hcallee]
          simp only [hreturns, Option.map_some]

/-- So are the values of arguments. -/
theorem gives_of_evaluateAll :
    ∀ {es : List Expr} {start : Nat} {code : List Instruction} {refs : List Nat},
      evaluateAll ctx start es = .ok (code, refs) →
      ∀ (k : Nat) e r, es[k]? = some e → refs[k]? = some r →
        ∃ kind, Model.width? ctx e = some kind ∧ Gives (lookIn start code) r kind
  | [], start, code, refs, _, k, e, r, he, _ => by cases he
  | first :: rest, start, code, refs, h, k, e, r, he, hr => by
    obtain ⟨value, hvalue, h⟩ := bind_eq_ok.mp h
    obtain ⟨⟨code', refs'⟩, hrest, h⟩ := bind_eq_ok.mp h
    cases h
    cases k with
    | zero =>
        cases he
        cases hr
        obtain ⟨kind, hwidth, hkind⟩ := kind?_of_evaluate hvalue
        exact ⟨kind, hwidth, _, lookIn_append_left (lookIn_ref value start), hkind⟩
    | succ k =>
        rw [value.next_eq] at hrest
        obtain ⟨kind, hwidth, x, hx, hkind⟩ := gives_of_evaluateAll hrest k e r he hr
        exact ⟨kind, hwidth, x, lookIn_append_right hx, hkind⟩

/-- **The parameters of a call are supplied**, if the arguments fill them. -/
theorem supplied_passing {function : String} {arguments : List Expr} {callee : Model.Function}
    {start : Nat} {code : List Instruction} {refs : List Nat}
    (hfills : Model.Fills ctx (function, arguments))
    (hcallee : ctx.program.function (ctx.calleeLabel function) = .ok callee)
    (hcode : evaluateAll ctx start arguments = .ok (code, refs)) :
    ∀ x ∈ passing (ctx.calleeLabel function) callee refs,
      Supplied ctx.program (lookIn start code) x := by
  intro x hx
  obtain ⟨⟨p, r⟩, hpair, rfl⟩ := List.mem_map.mp hx
  rintro _ _ _ ⟨⟩
  obtain ⟨k, hk⟩ := List.mem_iff_getElem?.mp hpair
  obtain ⟨hp, hr⟩ := List.getElem?_zip_eq_some.mp hk
  obtain ⟨_, hlength, _⟩ := valued_evaluateAll arguments hcode
  have hlt : k < arguments.length := hlength ▸ (List.getElem?_eq_some_iff.mp hr).1
  have he := List.getElem?_eq_getElem hlt
  obtain ⟨kind, hwidth, hgives⟩ := gives_of_evaluateAll hcode k _ r he hr
  simp only [Model.Fills, hcallee] at hfills
  have hfile := hfills (p, arguments[k])
    (List.mem_iff_getElem?.mpr ⟨k, List.getElem?_zip_eq_some.mpr ⟨hp, he⟩⟩)
  rw [hwidth] at hfile
  exact ⟨callee, p, kind, hcallee, List.mem_of_getElem? hp, rfl, hfile.symm, hgives⟩

mutual

/-- **The code of an expression supplies the parameters in it.** -/
theorem supplies_evaluate :
    ∀ (e : Expr) {start : Nat} {out : Evaluation}, (∀ site ∈ e.sites, Model.Fills ctx site) →
      evaluate ctx start e = .ok out → Supplies ctx.program start out.code
  | .int value, start, out, _, h => by
    cases h
    exact .single rfl
  | .bool value, start, out, _, h => by
    cases h
    exact .single rfl
  | .var label, start, out, _, h => by
    obtain ⟨⟨var, symbol⟩, _, h⟩ := bind_eq_ok.mp h
    cases h
    obtain ⟨kind, hkind⟩ := (valued_readVar ctx.program start var symbol).kind
    rw [Evaluation.code, readVar_single, List.nil_append]
    refine .single ?_
    cases hresult : (readVar var symbol).result with
    | parameter =>
        rw [hresult] at hkind
        cases hkind
    | _ => rfl
  | .index label index, start, out, hfills, h => by
    obtain ⟨⟨var, symbol⟩, _, h⟩ := bind_eq_ok.mp h
    obtain ⟨⟨array, space⟩, harray, h⟩ := bind_eq_ok.mp h
    obtain ⟨value, hvalue, h⟩ := bind_eq_ok.mp h
    cases h
    have hbase := isParameter_of_isBase (isBase_arrayBase? (orError_eq_ok.mp harray))
    have hrow : Supplies ctx.program start ([array] ++ value.code) :=
      (Supplies.single hbase).append (supplies_evaluate index hfills hvalue)
    exact hrow.snoc rfl
  | .unary op operand, start, out, hfills, h => by
    obtain ⟨value, hvalue, h⟩ := bind_eq_ok.mp h
    cases h
    exact (supplies_evaluate operand hfills hvalue).snoc rfl
  | .binary op lhs rhs, start, out, hfills, h => by
    obtain ⟨left, hleft, h⟩ := bind_eq_ok.mp h
    obtain ⟨right, hright, h⟩ := bind_eq_ok.mp h
    cases h
    obtain ⟨hfillsl, hfillsr⟩ := List.forall_mem_append.mp hfills
    rw [left.next_eq] at hright
    exact ((supplies_evaluate lhs hfillsl hleft).append
      (supplies_evaluate rhs hfillsr hright)).snoc rfl
  | .compare op lhs rhs, start, out, hfills, h => by
    obtain ⟨left, hleft, h⟩ := bind_eq_ok.mp h
    obtain ⟨right, hright, h⟩ := bind_eq_ok.mp h
    cases h
    obtain ⟨hfillsl, hfillsr⟩ := List.forall_mem_append.mp hfills
    rw [left.next_eq] at hright
    exact ((supplies_evaluate lhs hfillsl hleft).append
      (supplies_evaluate rhs hfillsr hright)).snoc rfl
  | .call function arguments, start, out, hfills, h => by
    obtain ⟨callee, hcallee, h⟩ := bind_eq_ok.mp h
    obtain ⟨⟨code, refs⟩, hcode, h⟩ := bind_eq_ok.mp h
    obtain ⟨hfill, hfills⟩ := List.forall_mem_cons.mp hfills
    have hsupplied := (steady_supplied ctx.program).extend
      (supplies_evaluateAll arguments hfills hcode)
      (supplied_passing hfill (callee_eq_ok hcallee) hcode)
    cases hreturns : callee.returns with
    | none =>
        rw [hreturns] at h
        cases h
    | some type =>
        rw [hreturns] at h
        cases h
        exact Supplies.snoc hsupplied rfl

/-- So does the code of expressions, one after the other. -/
theorem supplies_evaluateAll :
    ∀ (es : List Expr) {start : Nat} {code : List Instruction} {refs : List Nat},
      (∀ site ∈ Model.sitesAll es, Model.Fills ctx site) →
      evaluateAll ctx start es = .ok (code, refs) → Supplies ctx.program start code
  | [], start, code, refs, _, h => by
    cases h
    exact .nil
  | e :: rest, start, code, refs, hfills, h => by
    obtain ⟨value, hvalue, h⟩ := bind_eq_ok.mp h
    obtain ⟨⟨code', refs'⟩, hrest, h⟩ := bind_eq_ok.mp h
    cases h
    obtain ⟨hfillse, hfillsr⟩ := List.forall_mem_append.mp hfills
    rw [value.next_eq] at hrest
    exact (supplies_evaluate e hfillse hvalue).append (supplies_evaluateAll rest hfillsr hrest)

end

/-- So does the code of the target of an assignment. -/
theorem supplies_evaluatePlace {e : Expr} {start : Nat} {out : Evaluation}
    (hfills : ∀ site ∈ e.sites, Model.Fills ctx site) (h : evaluatePlace ctx start e = .ok out) :
    Supplies ctx.program start out.code := by
  unfold evaluatePlace at h
  split at h
  · obtain ⟨⟨var, symbol⟩, _, h⟩ := bind_eq_ok.mp h
    have hwrite := orError_eq_ok.mp h
    rw [Evaluation.code, writeVar?_single hwrite, List.nil_append]
    refine .single ?_
    have hnamed := storage?_writeVar? hwrite
    cases hresult : out.result with
    | parameter =>
        rw [hresult] at hnamed
        cases hnamed
    | _ => rfl
  · rename_i index
    obtain ⟨⟨var, symbol⟩, _, h⟩ := bind_eq_ok.mp h
    obtain ⟨array, harray, h⟩ := bind_eq_ok.mp h
    obtain ⟨value, hvalue, h⟩ := bind_eq_ok.mp h
    cases h
    have hbase := isParameter_of_isBase (isBase_writableBase? (orError_eq_ok.mp harray))
    have hrow : Supplies ctx.program start ([array] ++ value.code) :=
      (Supplies.single hbase).append (supplies_evaluate index hfills hvalue)
    exact hrow.snoc rfl
  · cases h

/-- **The code of a simple statement supplies the parameters in it.** -/
theorem supplies_simpleCode {stmt : Stmt} {start : Nat} {code : List Instruction}
    (hfills : ∀ site ∈ stmt.sites, Model.Fills ctx site)
    (h : simpleCode ctx start stmt = .ok code) : Supplies ctx.program start code := by
  cases stmt with
  | assign target op value =>
      obtain ⟨source, hsource, h⟩ := bind_eq_ok.mp h
      obtain ⟨place, hplace, h⟩ := bind_eq_ok.mp h
      cases h
      obtain ⟨hfillsv, hfillst⟩ := List.forall_mem_append.mp hfills
      rw [source.next_eq] at hplace
      exact ((supplies_evaluate value hfillsv hsource).append
        (supplies_evaluatePlace hfillst hplace)).snoc rfl
  | call function arguments =>
      obtain ⟨callee, hcallee, h⟩ := bind_eq_ok.mp h
      obtain ⟨⟨code', refs⟩, hcode, h⟩ := bind_eq_ok.mp h
      cases h
      obtain ⟨hfill, hfills⟩ := List.forall_mem_cons.mp hfills
      exact Supplies.snoc ((steady_supplied ctx.program).extend
        (supplies_evaluateAll arguments hfills hcode)
        (supplied_passing hfill (callee_eq_ok hcallee) hcode)) rfl
  | ret value =>
      cases value with
      | none =>
          cases h
          exact .single rfl
      | some value =>
          obtain ⟨value', hvalue, h⟩ := bind_eq_ok.mp h
          cases h
          exact (supplies_evaluate value hfills hvalue).snoc rfl
  | timer value =>
      obtain ⟨value', hvalue, h⟩ := bind_eq_ok.mp h
      cases h
      exact (supplies_evaluate value hfills hvalue).snoc rfl
  | level | halt | pause | reset | restart | nop =>
      cases h
      exact .single rfl
  | block | branch | loop | breakLoop | continueLoop =>
      cases h
      exact .nil

/-- A condition without a leading *not* has the calls of the condition. -/
theorem sites_polarity (condition : Expr) : (polarity condition).1.sites = condition.sites := by
  unfold polarity
  split <;> rfl

/-- **The flat code of a function supplies all parameters in it.**  Each instruction that passes a
parameter names a parameter which the callee declares, and a value for the file in which the callee
keeps it. -/
theorem Pieces.supplies {stmts : List Stmt} {start : Nat} {code : List Instruction}
    (h : Pieces ctx stmts start code)
    (hfills : ∀ stmt ∈ stmts, ∀ site ∈ stmt.sites, Model.Fills ctx site) :
    Supplies ctx.program start code := by
  induction h with
  | nil => exact .nil
  | cons hpiece _ ih =>
      refine Supplies.append ?_ ih
      cases hpiece with
      | marker | jump | ending => exact .single rfl
      | @test condition _ _ _ _ _ hmem hvalue =>
          refine (supplies_evaluate _ ?_ hvalue).snoc rfl
          rw [sites_polarity]
          exact hfills _ hmem
      | simple hmem _ hcode => exact supplies_simpleCode (hfills _ hmem) hcode

end Expressions

end Flat

namespace Stages.Member

variable {model : Model.Program} {c : Compilation} {s : Stages model c} {label : String}

/-- **What a live op uses is there in the end**, returns apart. -/
theorem final_of_operand (m : s.Member label) (l : m.Lineage) {i r : Nat} {x y : Instruction}
    (hx : m.look i = some x) (hreturn : x.isReturn = false) (hr : r ∈ x.operands)
    (hy : l.code[r]? = some y) : m.look r = some y := by
  have hlive : x ≠ .removed := by
    rintro rfl
    cases hr
  have hmarker : x.isMarker = false := by
    cases x with
    | marker => cases hr
    | _ => rfl
  have hsimple := m.simple_of_codeOf_final hx hlive
  obtain ⟨user, huser, hruser⟩ := l.operands hsimple hr
  have hinner := l.pieces.inner_before huser hruser
  have hlt := (l.shaped.operand i user huser r hruser).2
  obtain ⟨op, hop, rfl⟩ := Flat.exists_of_codeOf_getElem? hsimple
  obtain ⟨mid, hmid, hsame⟩ :=
    l.unbroken r i op hinner hop hlive hmarker hreturn r (Nat.le_refl r) (by omega)
  obtain ⟨z, hz, hvalue⟩ := hinner r (Nat.le_refl r) (by omega)
  rw [hy] at hsame hz
  cases hz
  refine m.final_of_used hx hr (Option.some.inj hsame ▸ Flat.codeOf_getElem? hmid) ?_
  cases y with
  | assign => cases hvalue
  | _ => rfl

/-- **In the end a call stands behind its parameters.**  Simplification and the reading of ports
take nothing out between them, so that one parameter after another gets its value right before the
call. -/
theorem call_site (m : s.Member label) {j : Nat} {callee : String} {result : Option Width}
    (hx : m.look j = some (.call callee result)) :
    ∃ first f refs, Flat.CallAt model 0 (codeOf m.final.body) first callee result f refs ∧
      j = first + refs.length := by
  obtain ⟨l⟩ := m.exists_lineage
  obtain ⟨op, hop, hinstr⟩ := Flat.exists_of_codeOf_getElem? (m.simple_of_codeOf_final hx nofun)
  have hcode := l.drawn.plain hop (by rw [hinstr]; nofun) (by rw [hinstr]; rfl)
  rw [hinstr] at hcode
  obtain ⟨first, f, refs, hcall, rfl⟩ := l.pieces.linked.seated.called j callee result hcode
  have hparameter : ∀ k, k < refs.length → ∃ p r, f.parameters[k]? = some p ∧ refs[k]? = some r ∧
      l.code[first + k]? = some (.parameter callee p.name r) := by
    intro k hk
    have hp := List.getElem?_eq_getElem (hcall.length_eq ▸ hk : k < f.parameters.length)
    have hr := List.getElem?_eq_getElem hk
    exact ⟨_, _, hp, hr, hcall.parameter k _ _ hp hr⟩
  have hinner : ∀ n, first ≤ n → n < first + refs.length →
      ∃ x, l.code[n]? = some x ∧ x.isInner = true := by
    intro n hfirst hn
    obtain ⟨p, r, _, _, hn'⟩ := hparameter (n - first) (by omega)
    rw [Nat.add_sub_cancel' hfirst] at hn'
    exact ⟨_, hn', rfl⟩
  refine ⟨first, f, refs, ⟨hcall.callee_eq, hcall.length_eq, ?_, hx, hcall.before⟩, rfl⟩
  intro k p r hp hr
  have hlt := (List.getElem?_eq_some_iff.mp hr).1
  obtain ⟨mid, hmid, hsame⟩ := l.unbroken first (first + refs.length) op hinner hop
    (by rw [hinstr]; nofun) (by rw [hinstr]; rfl) (by rw [hinstr]; rfl) (first + k) (by omega)
    (by omega)
  rw [hcall.parameter k p r hp hr] at hsame
  exact m.final_of_simple ((Flat.codeOf_getElem? hmid).trans hsame.symm) rfl nofun

/-- **Every parameter is supplied in the end**, in the body that is written out, whatever was taken
out of the flat code on the way to it. -/
theorem supplied (m : s.Member label) (htyped : model.ArgumentTyped)
    {i : Nat} {x : Instruction} (hx : m.look i = some x) : Flat.Supplied model m.look x := by
  rintro function name value rfl
  obtain ⟨l⟩ := m.exists_lineage
  obtain ⟨module, hmodule, horigin⟩ := l.mem
  have hsupplies := l.pieces.supplies (htyped module hmodule l.origin horigin).fills
  have hsimple := m.simple_of_codeOf_final hx nofun
  obtain ⟨op, hop, hinstr⟩ := Flat.exists_of_codeOf_getElem? hsimple
  have hcode := l.drawn.plain hop (by rw [hinstr]; nofun) (by rw [hinstr]; rfl)
  rw [hinstr] at hcode
  obtain ⟨callee, p, kind, hcallee, hp, hname, hfile, y, hy, hkind⟩ :=
    hsupplies _ (List.mem_of_getElem? hcode) function name value rfl
  have hy : l.code[value]? = some y := by simpa [lookIn] using hy
  exact ⟨callee, p, kind, hcallee, hp, hname, hfile, y,
    m.final_of_operand l hx rfl (List.mem_singleton_self value) hy, hkind⟩

end Stages.Member

end Stackless
