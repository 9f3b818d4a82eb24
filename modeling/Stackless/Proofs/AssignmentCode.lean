import Stackless.Proofs.GlobalsApart
import Stackless.Proofs.Simulation

/-!
# The code of an assignment keeps its values

An assignment that is left after simplification has all of its code before it.  The values that
this code computes have slots of their own, with one exception (`Live.own_cases`): a port that
is assigned to a word variable, and a comparison that is assigned to a truth variable, go
straight to the variable.

Up to there, values are kept until they are used (`Live.kept`): operands are used by one op, so
their slots are taken until then, in the register file also by the op itself.
-/

namespace Stackless

open Flat (Op Instruction Offset File Width Var Gives Suits Context Evaluation AssignPiece codeOf)
open Assembly
open Storage (ReadsPort)
open Model (Expr MathOp)

namespace Flat

variable {ctx : Context}

/-- The read of a variable makes no call. -/
theorem isCall_readVar {var : Var} {symbol : Model.Symbol} :
    ∀ x ∈ (readVar var symbol).code, x.isCall = false := by
  intro x hx
  rw [Evaluation.code, readVar_single, List.nil_append] at hx
  rw [List.mem_singleton.mp hx]
  unfold readVar
  cases symbol.storage with
  | rom =>
      cases symbol.isArray with
      | true => rfl
      | false =>
          simp only [Bool.false_eq_true, if_false, literalOf]
          cases symbol.type <;> rfl
  | _ => rfl

theorem isCall_of_isBase {x : Instruction} (h : x.isBase = true) : x.isCall = false := by
  cases x with
  | register | ram | rom => rfl
  | _ => cases h

/-- **The code of an expression without calls makes none.** -/
theorem isCall_evaluate :
    ∀ (e : Expr) {start : Nat} {out : Evaluation}, e.callFree = true →
      evaluate ctx start e = .ok out → ∀ x ∈ out.code, x.isCall = false
  | .int value, start, out, _, h => by
    cases h
    exact List.forall_mem_singleton.mpr rfl
  | .bool value, start, out, _, h => by
    cases h
    exact List.forall_mem_singleton.mpr rfl
  | .var label, start, out, _, h => by
    obtain ⟨⟨var, symbol⟩, _, h⟩ := bind_eq_ok.mp h
    cases h
    exact isCall_readVar
  | .index label index, start, out, hfree, h => by
    obtain ⟨⟨var, symbol⟩, _, h⟩ := bind_eq_ok.mp h
    obtain ⟨⟨array, space⟩, harray, h⟩ := bind_eq_ok.mp h
    obtain ⟨value, hvalue, h⟩ := bind_eq_ok.mp h
    cases h
    have hbase := isCall_of_isBase (isBase_arrayBase? (orError_eq_ok.mp harray))
    have hindex := isCall_evaluate index hfree hvalue
    exact List.forall_mem_append.mpr
      ⟨List.forall_mem_cons.mpr ⟨hbase, hindex⟩, List.forall_mem_singleton.mpr rfl⟩
  | .unary op operand, start, out, hfree, h => by
    obtain ⟨value, hvalue, h⟩ := bind_eq_ok.mp h
    cases h
    have hoperand := isCall_evaluate operand hfree hvalue
    exact List.forall_mem_append.mpr ⟨hoperand, List.forall_mem_singleton.mpr rfl⟩
  | .binary op lhs rhs, start, out, hfree, h => by
    obtain ⟨left, hleft, h⟩ := bind_eq_ok.mp h
    obtain ⟨right, hright, h⟩ := bind_eq_ok.mp h
    cases h
    obtain ⟨hfreeLeft, hfreeRight⟩ := Bool.and_eq_true_iff.mp hfree
    have hfirst := isCall_evaluate lhs hfreeLeft hleft
    have hsecond := isCall_evaluate rhs hfreeRight hright
    exact List.forall_mem_append.mpr
      ⟨List.forall_mem_append.mpr ⟨hfirst, hsecond⟩, List.forall_mem_singleton.mpr rfl⟩
  | .compare op lhs rhs, start, out, hfree, h => by
    obtain ⟨left, hleft, h⟩ := bind_eq_ok.mp h
    obtain ⟨right, hright, h⟩ := bind_eq_ok.mp h
    cases h
    obtain ⟨hfreeLeft, hfreeRight⟩ := Bool.and_eq_true_iff.mp hfree
    have hfirst := isCall_evaluate lhs hfreeLeft hleft
    have hsecond := isCall_evaluate rhs hfreeRight hright
    exact List.forall_mem_append.mpr
      ⟨List.forall_mem_append.mpr ⟨hfirst, hsecond⟩, List.forall_mem_singleton.mpr rfl⟩
  | .call function arguments, start, out, hfree, h => by
    cases hfree

/-- Neither does the code of a target. -/
theorem isCall_evaluatePlace {e : Expr} {start : Nat} {out : Evaluation} (hfree : e.callFree = true)
    (h : evaluatePlace ctx start e = .ok out) : ∀ x ∈ out.code, x.isCall = false := by
  unfold evaluatePlace at h
  split at h
  · obtain ⟨⟨var, symbol⟩, _, h⟩ := bind_eq_ok.mp h
    have hplace := orError_eq_ok.mp h
    intro x hx
    rw [Evaluation.code, writeVar?_single hplace, List.nil_append] at hx
    rw [List.mem_singleton.mp hx]
    have hstorage := storage?_writeVar? hplace
    cases hresult : out.result with
    | call | parameter =>
        rw [hresult] at hstorage
        cases hstorage
    | _ => rfl
  · rename_i label index
    obtain ⟨⟨var, symbol⟩, _, h⟩ := bind_eq_ok.mp h
    obtain ⟨array, harray, h⟩ := bind_eq_ok.mp h
    obtain ⟨value, hvalue, h⟩ := bind_eq_ok.mp h
    cases h
    have hbase := isCall_of_isBase (isBase_writableBase? (orError_eq_ok.mp harray))
    have hindex := isCall_evaluate index hfree hvalue
    exact List.forall_mem_append.mpr
      ⟨List.forall_mem_cons.mpr ⟨hbase, hindex⟩, List.forall_mem_singleton.mpr rfl⟩
  · cases h

namespace AssignPiece

variable {stmts : List Model.Stmt} {code : List Instruction} {op : Option MathOp}
  {width : Width} {t v j : Nat} (p : AssignPiece ctx stmts code op width t v j)

/-- What computes the value and the place of an assignment. -/
def inner : List Instruction :=
  p.source.code ++ p.place.code

/-- All instructions of an assignment. -/
def all : List Instruction :=
  p.inner ++ [.assign op width t v]

include p

theorem simpleCode_eq : simpleCode ctx p.start (.assign p.target op p.value) = .ok p.all := by
  have hsource := p.source_eq
  have hplace := p.place_eq
  simp only [simpleCode, hsource, hplace, bind, Except.bind]
  rw [← p.width_eq, ← p.target_eq, ← p.value_eq]
  rfl

theorem index_inner : j = p.start + p.inner.length :=
  p.index_eq

theorem operand {n r : Nat} {x : Instruction} (hx : p.all[n]? = some x) (hr : r ∈ x.operands) :
    p.start ≤ r ∧ r < p.start + n :=
  (simpleCode_shaped p.simpleCode_eq).operand n x hx r hr

theorem isInner_inner : ∀ x ∈ p.inner, x.isInner = true := by
  intro x hx
  rcases List.mem_append.mp hx with hx | hx
  · exact (evaluate_computes p.value p.source_eq).inner x hx
  · exact (evaluatePlace_computes p.place_eq).inner x hx

/-- What stands at the indices before the assignment. -/
theorem inner_at {k : Nat} (hle : p.start ≤ k) (hlt : k < j) :
    ∃ x, code[k]? = some x ∧ x ∈ p.inner := by
  have hj := p.index_inner
  obtain ⟨x, hx⟩ : ∃ x, p.inner[k - p.start]? = some x :=
    ⟨_, List.getElem?_eq_getElem (by omega)⟩
  refine ⟨x, ?_, List.mem_of_getElem? hx⟩
  rw [← hx, ← show p.start + (k - p.start) = k by omega,
    Nat.add_sub_cancel_left]
  refine p.code_eq (k - p.start) ?_
  show k - p.start < p.inner.length
  omega

/-- **What the code of an assignment computes is used by the assignment**, if by any. -/
theorem assign_eq (hshaped : Shaped 0 code) (hj : code[j]? = some (.assign op width t v)) {k u : Nat}
    {op' : Option MathOp} {width' : Width} {t' v' : Nat} (hle : p.start ≤ k) (hlt : k < j)
    (hu : code[u]? = some (.assign op' width' t' v')) (hk : k = t' ∨ k = v') : u = j := by
  have hmem : k ∈ (Instruction.assign op' width' t' v').operands := by
    rcases hk with rfl | rfl
    · exact List.mem_cons_self
    · exact List.mem_cons_of_mem _ List.mem_cons_self
  have hku := (hshaped.operand u _ hu k hmem).2
  rcases Nat.lt_trichotomy u j with hbefore | rfl | hbehind
  · -- it would stand in the code of this one, where nothing is assigned
    obtain ⟨x, hx, hinner⟩ := p.inner_at (k := u) (by omega) hbefore
    rw [hu] at hx
    cases hx
    cases p.isInner_inner _ hinner
  · rfl
  · -- this one would stand between the value and its user
    cases hshaped.inner u _ hu k hmem j _ (by omega) hbehind hj

end AssignPiece

end Flat

namespace Stages.Member

variable {model : Model.Program} {c : Compilation} {s : Stages model c} {label : String}

/-- A slot of the frame that is not pinned. -/
def Temporary (m : s.Member label) (cell : File × Nat) : Prop :=
  ∃ slot, m.pins cell.1 ≤ slot ∧ slot < (m.final.window cell.1).count ∧
    cell.2 = m.address cell.1 slot

/-- Temporaries are in the window, and no local is in their cells. -/
theorem Temporary.holds {m : s.Member label} {cell : File × Nat} (h : m.Temporary cell) :
    (m.final.window cell.1).Holds cell.2 ∧ ∀ name, s.localCell? label name ≠ some cell := by
  obtain ⟨file, address⟩ := cell
  obtain ⟨slot, hpins, hlt, heq⟩ := h
  dsimp only at hpins hlt heq
  subst heq
  refine ⟨m.holds_address hlt, fun name hcell => ?_⟩
  obtain ⟨slot', hlt', haddress, _⟩ := m.holds_of_localCell? hcell
  have hle := m.pins_le file
  simp only [address] at haddress
  omega

/-- A value that has a slot is a temporary. -/
theorem temporary_of_temp {m : s.Member label} {k : Nat} {width : Width} {cell : File × Nat} (hfile : width.file = cell.1)
    (htemp : m.Temp k width (.absolute cell.2)) : m.Temporary cell := by
  obtain ⟨_, slot, hpins, hlt, heq⟩ := htemp
  rw [hfile] at hpins hlt heq
  exact ⟨slot, hpins, hlt, Offset.absolute.inj heq⟩

/-- Where a variable is. -/
def addressOf (m : s.Member label) (var : Var) : Nat :=
  (m.addressOf? var).getD 0

/-- Registers are used again when their values are gone. -/
theorem reuse_register (m : s.Member label) : m.reuse .register = .strict := by
  have hpinned : ∀ {entries : List (String × Model.Symbol)} {pools pools' : Storage.Pools}
      {locals locals' : Table Offset},
      Storage.pinLocals pools locals entries = .ok (pools', locals') →
      pools'.registers.reuse = pools.registers.reuse := by
    intro entries
    induction entries with
    | nil =>
        intro pools pools' locals locals' h
        cases h
        rfl
    | cons e rest ih =>
        intro pools pools' locals locals' h
        unfold Storage.pinLocals at h
        split at h
        · have h : Storage.pinLocals (pools.pin .register).2 _ rest = _ := h
          have hrest := ih h
          exact hrest
        · have h : Storage.pinLocals (pools.pin .bit).2 _ rest = _ := h
          have hrest := ih h
          exact hrest
        · exact ih h
        · cases h
  have hresult : ∀ (pools : Storage.Pools) (locals : Table Offset) (returns : Option Model.ValueType),
      (Storage.pinResult pools locals returns).1.registers.reuse = pools.registers.reuse := by
    intro pools locals returns
    cases returns with
    | none => rfl
    | some type => cases type <;> rfl
  show (Storage.pinResult m.framing.pinned m.framing.symbols m.source.returns).1.registers.reuse = _
  rw [hresult, hpinned m.framing.pin_eq]
  rfl

/-- A value that goes straight to the variable that it is assigned to, at an address. -/
def Direct (m : s.Member label) (j t v address : Nat) : Prop :=
  ∃ var, m.addressOf? var = some address ∧
    (ReadsPort m.simple.body j t v var ∨
      (m.look j = some (.assign none .bit t v) ∧ m.look t = some (.bit var) ∧
        ∃ test width lhs rhs, m.look v = some (.compare test width lhs rhs)))

/-- **A live assignment without calls**, in a tidy program that is typed as to its operands and
whose assembly can be written. -/
structure Live (m : s.Member label) (l : m.Lineage) (change : Option MathOp) (width : Width)
    (t v j : Nat) where
  piece : AssignPiece ⟨model, l.origin⟩ l.origin.statements l.code change width t v j
  live : (codeOf m.simple.body)[j]? = some (.assign change width t v)
  filed : model.Filed
  keeps : model.KeepsResults
  typed : model.OperandTyped
  tidy : c.Tidy model
  reached : label ∈ c.forest.reachable
  writable : ∀ (n : Nat) op, m.final.body[n]? = some op → (m.writing.opLines n op).outcome = .ok ()
  target_free : piece.target.callFree = true
  value_free : piece.value.callFree = true

namespace Live

variable {m : s.Member label} {l : m.Lineage} {change : Option MathOp} {width : Width} {t v j : Nat}
variable (h : m.Live l change width t v j)

include h

theorem code_at : l.code[j]? = some (.assign change width t v) := by
  obtain ⟨op, hop, hinstr⟩ := Flat.exists_of_codeOf_getElem? h.live
  rw [← hinstr]
  exact l.drawn.plain hop (by rw [hinstr]; nofun) (by rw [hinstr]; rfl)

theorem isCall_inner : ∀ x ∈ h.piece.inner, x.isCall = false :=
  List.forall_mem_append.mpr ⟨Flat.isCall_evaluate _ h.value_free h.piece.source_eq,
    Flat.isCall_evaluatePlace h.target_free h.piece.place_eq⟩

/-- **All of its code is there after simplification.** -/
theorem simple_at {k : Nat} (hle : h.piece.start ≤ k) (hlt : k < j) :
    ∃ x, (codeOf m.simple.body)[k]? = some x ∧ l.code[k]? = some x ∧ x ∈ h.piece.inner := by
  obtain ⟨x, hx, hmem⟩ := h.piece.inner_at hle hlt
  obtain ⟨op, hop, hinstr⟩ := Flat.exists_of_codeOf_getElem? h.live
  obtain ⟨op', hop', hcode⟩ := l.unbroken h.piece.start j op
    (fun k hle hlt => by
      obtain ⟨x, hx, hmem⟩ := h.piece.inner_at hle hlt
      exact ⟨x, hx, h.piece.isInner_inner x hmem⟩)
    hop (by rw [hinstr]; nofun) (by rw [hinstr]; rfl) (by rw [hinstr]; rfl) k hle hlt
  refine ⟨x, ?_, hx, hmem⟩
  rw [Flat.codeOf_getElem? hop', ← hcode, hx]

/-- An assignment that uses a value of the code is this one. -/
theorem assign_unique {k u : Nat} {op' : Option MathOp} {width' : Width} {t' v' : Nat}
    (hle : h.piece.start ≤ k) (hlt : k < j)
    (hu : (codeOf m.simple.body)[u]? = some (.assign op' width' t' v')) (hk : k = t' ∨ k = v') :
    u = j ∧ t' = t ∧ v' = v := by
  obtain ⟨op, hop, hinstr⟩ := Flat.exists_of_codeOf_getElem? hu
  have hcode : l.code[u]? = some (.assign op' width' t' v') := by
    rw [← hinstr]
    exact l.drawn.plain hop (by rw [hinstr]; nofun) (by rw [hinstr]; rfl)
  have huj := h.piece.assign_eq l.shaped h.code_at hle hlt hcode hk
  subst huj
  rw [h.live] at hu
  cases hu
  exact ⟨rfl, rfl, rfl⟩

/-- **All of its code is there in the end**, but for a variable that a port is read into. -/
theorem final_at {k : Nat} (hle : h.piece.start ≤ k) (hlt : k < j)
    (hport : k = t → ∀ var, ¬ReadsPort m.simple.body j t v var) :
    ∃ x, m.look k = some x ∧ l.code[k]? = some x ∧ x ∈ h.piece.inner := by
  obtain ⟨x, hsimple, hcode, hmem⟩ := h.simple_at hle hlt
  have hinner := h.piece.isInner_inner x hmem
  refine ⟨x, m.final_of_kept hsimple ?_ ?_, hcode, hmem⟩
  · cases x with
    | assign => cases hinner
    | _ => rfl
  · intro u t' v' var hreads hk
    obtain ⟨rfl, rfl, rfl⟩ := h.assign_unique hle hlt hreads.assign (.inl hk)
    exact hport hk var hreads

/-- **Where the values of the code are**: each in its slot, unless it goes straight to the
variable. -/
theorem own_cases {k : Nat} {cell : File × Nat} (hle : h.piece.start ≤ k) (hlt : k < j)
    (hown : m.writing.own? k = some cell) :
    (∃ width, width.file = cell.1 ∧ m.Temp k width (.absolute cell.2)) ∨
      (k = v ∧ m.Direct j t v cell.2) := by
  obtain ⟨op, hop⟩ : ∃ op, m.final.body[k]? = some op := by
    cases hop : m.final.body[k]? with
    | some op => exact ⟨op, rfl⟩
    | none =>
        have hop : m.writing.function.body[k]? = none := hop
        rw [Writing.own?, hop] at hown
        cases hown
  obtain ⟨hfile, hoffset⟩ := (Writing.own?_eq_some (w := m.writing) hop).mp hown
  rcases m.value_cases hop hfile hoffset with
    htemp | ⟨u, t', var, hreads, hvar, _⟩ | ⟨u, t', var, hassign, htarget, hcompare, hvar, _⟩
  · exact .inl htemp
  · obtain ⟨rfl, rfl, rfl⟩ := h.assign_unique hle hlt hreads.assign (.inr rfl)
    exact .inr ⟨rfl, var, hvar, .inl hreads⟩
  · obtain ⟨rfl, rfl, rfl⟩ := h.assign_unique hle hlt
      (m.simple_of_codeOf_final hassign (by simp)) (.inr rfl)
    obtain ⟨test, width, lhs, rhs, hinstr⟩ := hcompare
    have hlook : m.look k = some (.compare test width lhs rhs) := by
      rw [← hinstr]
      exact Flat.codeOf_getElem? hop
    exact .inr ⟨rfl, var, hvar, .inr ⟨hassign, htarget, test, width, lhs, rhs, hlook⟩⟩

/-- **Variables are no temporaries, and not scratch.** -/
theorem variable_apart {k : Nat} {x : Instruction} {var : Var} {storage : Model.Storage}
    {file : File} {address : Nat} (hx : (codeOf m.simple.body)[k]? = some x)
    (hstorage : x.storage? = some (var, storage)) (hfile : Storage.fileOf? storage = some file)
    (haddress : m.addressOf? var = some address) :
    ¬m.Temporary (file, address) ∧ (file, address) ≠ (.register, scratch) := by
  obtain ⟨module, hmodule, hsource⟩ := m.source_mem h.filed
  have hkeeps := h.keeps module hmodule m.source hsource
  rcases m.variable_cell h.filed hkeeps hx hstorage hfile haddress with
    ⟨name, slot, _, hlt, rfl⟩ | ⟨module, name, symbol, _, hglobal, rfl, hfind⟩
  · have hle := m.pins_le file
    constructor
    · rintro ⟨slot', hpins, hlt', heq⟩
      simp only [Member.address] at heq hpins hlt'
      omega
    · intro heq
      obtain ⟨rfl, heq⟩ := Prod.mk.inj heq
      obtain ⟨F, hF, hfree⟩ := s.free_le h.reached
      rw [m.final_eq] at hF
      cases hF
      have hscratch := Nat.le_trans (Storage.scratch_le s.storage.cursors_eq .register)
        (hfree .register)
      have hbase : 2 ≤ (m.final.window .register).base := hscratch
      simp only [Member.address, scratch] at heq
      omega
  · obtain ⟨hscratch, hwindow⟩ := s.global_apart h.tidy hglobal hfile hfind
    constructor
    · intro htemporary
      exact hwindow label h.reached m.final m.final_eq htemporary.holds.1
    · intro heq
      obtain ⟨rfl, rfl⟩ := Prod.mk.inj heq
      exact absurd hscratch (by decide)

/-- Ports are globals. -/
theorem port_global {k : Nat} {var : Var} (hx : (codeOf m.simple.body)[k]? = some (.portIn var)) :
    ∃ name, var = .globalVar name := by
  obtain ⟨symbol, hport, ⟨name, _, hfind⟩ | ⟨module, name, rfl, _⟩⟩ := l.named_cases hx rfl
  · rw [l.origin_eq_source h.filed] at hfind
    exact absurd hport (Storage.storage_of_pinLocals m.framing.pin_eq _
      (Table.find?_eq_some.mp hfind)).1
  · exact ⟨_, rfl⟩

/-- **Named storage is where it is said to be.** -/
theorem named_at {k : Nat} {op : Op}
    (hop : m.final.body[k]? = some op) : m.writing.Named m.addressOf m.Temporary op := by
  have hplacement := m.placement hop
  have hsimple : op.instruction ≠ .removed → (codeOf m.simple.body)[k]? = some op.instruction :=
    m.simple_of_codeOf_final (Flat.codeOf_getElem? hop)
  unfold Writing.Named
  cases hinstr : op.instruction with
  | register var =>
      rw [hinstr] at hplacement hsimple
      obtain ⟨address, haddress, hoffset⟩ := hplacement
      have heq : m.addressOf var = address := by rw [addressOf, haddress, Option.getD_some]
      obtain ⟨hnot, hne⟩ := h.variable_apart (hsimple (by simp)) rfl rfl haddress
      refine ⟨heq ▸ hoffset, heq ▸ hnot, fun hscratch => hne ?_⟩
      rw [← heq, hscratch]
  | bit var =>
      rw [hinstr] at hplacement hsimple
      obtain ⟨address, haddress, hoffset⟩ := hplacement
      have heq : m.addressOf var = address := by rw [addressOf, haddress, Option.getD_some]
      obtain ⟨hnot, _⟩ := h.variable_apart (hsimple (by simp)) rfl rfl haddress
      exact ⟨heq ▸ hoffset, heq ▸ hnot⟩
  | ram var | rom var | portOut var =>
      rw [hinstr] at hplacement
      obtain ⟨name, address, rfl, haddress, hoffset⟩ := hplacement
      have heq : m.addressOf (.globalVar name) = address := by
        rw [addressOf, addressOf?, haddress, Option.getD_some]
      show op.offset = .absolute (m.addressOf (.globalVar name))
      rw [heq]
      exact hoffset
  | portIn var =>
      rw [hinstr] at hsimple
      obtain ⟨name, rfl⟩ := h.port_global (hsimple (by simp))
      have hwrites := Emission.writes_of_outcome (h.writable k op hop)
      rw [Writing.opLines_writes, hinstr] at hwrites
      obtain ⟨port, hport, _⟩ := hwrites
      have hfind : c.layout.addresses.find? name = some port := Writing.port_eq_ok.mp hport
      show c.layout.addresses.find? name = some (m.addressOf (.globalVar name))
      rw [addressOf, addressOf?, hfind, Option.getD_some]
  | _ => trivial

/-- Code of the assignment, from its start on, that is all there in the end.  Of the values in it
only the last one may go straight to the variable. -/
structure Part (h : m.Live l change width t v j) (code : List Instruction) : Prop where
  leads : code <+: h.piece.all
  look : ∀ {n : Nat} {x : Instruction}, code[n]? = some x → m.look (h.piece.start + n) = some x
  kept : ∀ {n : Nat}, n + 1 < code.length → h.piece.start + n = v → ∀ cell,
    m.writing.own? v = some cell → ¬m.Direct j t v cell.2

namespace Part

variable {h} {code : List Instruction} (part : h.Part code)

include part

/-- What stands at an index. -/
theorem all_at {n : Nat} {x : Instruction} (hx : code[n]? = some x) :
    h.piece.all[n]? = some x ∧ h.piece.start + n ≤ j := by
  have hlt := (List.getElem?_eq_some_iff.mp hx).1
  have hle := part.leads.length_le
  obtain ⟨rest, hrest⟩ := part.leads
  refine ⟨?_, ?_⟩
  · rw [← hrest, List.getElem?_append_left hlt]
    exact hx
  · have hj := h.piece.index_inner
    rw [AssignPiece.all, List.length_append, List.length_singleton] at hle
    omega

theorem lt_of_lt {n : Nat} (hn : n + 1 < code.length) : h.piece.start + n < j := by
  have hle := part.leads.length_le
  have hj := h.piece.index_inner
  rw [AssignPiece.all, List.length_append, List.length_singleton] at hle
  omega

theorem temp {n : Nat} {cell : File × Nat} (hn : n + 1 < code.length)
    (hown : m.writing.own? (h.piece.start + n) = some cell) :
    ∃ width, width.file = cell.1 ∧ m.Temp (h.piece.start + n) width (.absolute cell.2) := by
  rcases h.own_cases (Nat.le_add_right _ _) (part.lt_of_lt hn) hown with htemp | ⟨hv, hdirect⟩
  · exact htemp
  · exact absurd hdirect (part.kept hn hv cell (hv ▸ hown))

/-- **The slot of an operand is its own until it was used.**  In the register file this holds for
the user too. -/
theorem operand_kept {n r k : Nat} {x : Instruction} {cell : File × Nat} {width : Width}
    (hx : code[n]? = some x) (hr : r ∈ x.operands) (hown : m.writing.own? r = some cell) (hrk : r < k)
    (hk : k < h.piece.start + n ∨ (k = h.piece.start + n ∧ cell.1 = .register))
    (hfile : width.file = cell.1) (hclaims : m.framing.visit.Claims k width) :
    m.writing.own? k ≠ some cell := by
  intro hownk
  obtain ⟨mid, hmid, hclaimk⟩ := hclaims
  obtain ⟨hle, hlt⟩ := h.piece.operand (part.all_at hx).1 hr
  have hn := (List.getElem?_eq_some_iff.mp hx).1
  obtain ⟨i, rfl⟩ : ∃ i, r = h.piece.start + i := ⟨r - h.piece.start, by omega⟩
  obtain ⟨width', hfile', ⟨op, hop, hclaims⟩, _⟩ := part.temp (by omega) hown
  obtain ⟨slot, _, _, haddress, hothers⟩ := m.claimed_until hop hclaims
  obtain ⟨final, hfinal⟩ := m.final_of_visited hop
  obtain ⟨last, hlast⟩ := m.final_of_visited hmid
  have hoffset : final.offset = .absolute cell.2 :=
    ((Writing.own?_eq_some (w := m.writing) hfinal).mp hown).2
  have hoffset' : last.offset = .absolute cell.2 :=
    ((Writing.own?_eq_some (w := m.writing) hlast).mp hownk).2
  obtain ⟨user, huser, hinstr⟩ := Flat.exists_of_codeOf_getElem? (part.look hx)
  have huse := m.le_last_use l.body_eq hop huser (hinstr ▸ hr)
  have hexpired : (m.reuse width'.file).expired (op.lastUse.getD (h.piece.start + i)) k = false := by
    rcases hk with hk | ⟨rfl, hregister⟩
    · exact Storage.SlotPool.not_expired (by omega)
    · rw [hfile', hregister, m.reuse_register]
      exact decide_eq_false (by omega)
  refine hothers k mid width last hrk hexpired hmid hclaimk hlast (hfile.trans hfile'.symm) ?_
  rw [hoffset', ← hoffset]
  exact haddress final hfinal

/-- In the end the instructions of the code still suit. -/
theorem suits {n : Nat} {x : Instruction} (hx : code[n]? = some x) :
    Suits ⟨model, l.origin⟩ m.look x := by
  obtain ⟨hall, hle⟩ := part.all_at hx
  have hfits := l.fits h.typed
  have hcode : ∀ {i : Nat} {y : Instruction}, code[i]? = some y → l.code[h.piece.start + i]? = some y := by
    intro i y hy
    obtain ⟨hall, hle⟩ := part.all_at hy
    rcases Nat.lt_or_eq_of_le hle with hlt | heq
    · have hj := h.piece.index_inner
      rw [h.piece.code_eq i (by show i < h.piece.inner.length; omega)]
      rw [AssignPiece.all, List.getElem?_append_left (by omega)] at hall
      exact hall
    · rw [heq, h.code_at]
      have hi : i = h.piece.inner.length := by
        have hj := h.piece.index_inner
        omega
      rw [AssignPiece.all, hi, List.getElem?_append_right (Nat.le_refl _), Nat.sub_self] at hall
      exact hall
  refine (hfits x (List.mem_of_getElem? (hcode hx))).of_operands fun r hr y hy _ => ?_
  obtain ⟨hler, hltr⟩ := h.piece.operand hall hr
  have hn := (List.getElem?_eq_some_iff.mp hx).1
  obtain ⟨i, rfl⟩ : ∃ i, r = h.piece.start + i := ⟨r - h.piece.start, by omega⟩
  have hi : code[i]? = some code[i] := List.getElem?_eq_getElem (by omega)
  have hy : l.code[h.piece.start + i]? = some y := by simpa [Flat.lookIn] using hy
  rw [hcode hi] at hy
  rw [part.look hi, hy]

/-- **The values of the code are kept until they are used.**  Two temporaries of one assignment
share a cell only if the later one is written when the earlier one has been used. -/
theorem kept_code : m.writing.Kept ⟨model, l.origin⟩ m.addressOf m.Temporary h.piece.start code where
  op := fun {n x} hx => by
    obtain ⟨op, hop, hinstr⟩ := Flat.exists_of_codeOf_getElem? (part.look hx)
    exact ⟨op, hop, hinstr, h.writable _ op hop⟩
  inner := fun {n x} hx hn => by
    have hj := h.piece.index_inner
    have hlt := part.lt_of_lt hn
    have hall := (part.all_at hx).1
    rw [AssignPiece.all, List.getElem?_append_left (by omega)] at hall
    have hmem := List.mem_of_getElem? hall
    exact ⟨h.piece.isInner_inner x hmem, h.isCall_inner x hmem⟩
  back := fun hx hr => h.piece.operand (part.all_at hx).1 hr
  suits := part.suits
  named := fun _ hop => h.named_at hop
  temporary := fun hn hown => by
    obtain ⟨width, hfile, htemp⟩ := part.temp hn hown
    exact temporary_of_temp hfile htemp
  scratch_free := by
    rintro ⟨slot, _, hlt, heq⟩
    obtain ⟨F, hF, hfree⟩ := s.free_le h.reached
    rw [m.final_eq] at hF
    cases hF
    have hbase : 2 ≤ (m.final.window .register).base :=
      Nat.le_trans (Storage.scratch_le s.storage.cursors_eq .register) (hfree .register)
    simp only [Member.address, scratch] at heq hlt
    omega
  apart := fun {n x r k cell} hx hr hrk hk hown hownk => by
    obtain ⟨hle, _⟩ := h.piece.operand (part.all_at hx).1 hr
    have hn := (List.getElem?_eq_some_iff.mp hx).1
    obtain ⟨i, rfl⟩ : ∃ i, k = h.piece.start + i := ⟨k - h.piece.start, by omega⟩
    obtain ⟨width, hfile, htemp⟩ := part.temp (by omega) hownk
    exact part.operand_kept hx hr hown hrk (.inl hk) hfile htemp.1 hownk
  strict := fun {n x r address} hx hr hown hownr => by
    obtain ⟨hle, hlt⟩ := h.piece.operand (part.all_at hx).1 hr
    have hj := (part.all_at hx).2
    obtain ⟨op, hop, hinstr⟩ := Flat.exists_of_codeOf_getElem? (part.look hx)
    have hresult := ((Writing.own?_eq_some (w := m.writing) hop).mp hown).1
    have hsimple := m.simple_of_codeOf_final (part.look hx) fun heq => by
      rw [heq] at hr
      cases hr
    have hltj : h.piece.start + n < j := by
      refine Nat.lt_of_le_of_ne hj fun heq => ?_
      rw [heq, h.live] at hsimple
      cases hsimple
      rw [hinstr] at hresult
      cases hresult
    rcases h.own_cases (Nat.le_add_right _ _) hltj hown with ⟨width, hfile, htemp⟩ | ⟨hv, hdirect⟩
    · exact part.operand_kept hx hr hownr hlt (.inr ⟨rfl, rfl⟩) hfile htemp.1 hown
    · -- what goes straight to a register is the read of a port
      obtain ⟨var, _, hreads | ⟨_, _, test, width, lhs, rhs, hcompare⟩⟩ := hdirect
      · obtain ⟨port, hport⟩ := hreads.value
        rw [← hv, hsimple] at hport
        cases hport
        cases hr
      · rw [← hv, part.look hx] at hcompare
        cases hcompare
        rw [hinstr] at hresult
        cases hresult

end Part

end Live

end Stages.Member

end Stackless
