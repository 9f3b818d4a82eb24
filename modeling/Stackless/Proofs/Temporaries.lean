import Stackless.Proofs.Flattening
import Stackless.Proofs.Frames
import Stackless.Proofs.WindowSeparation

/-!
# A temporary keeps its value until it is used last

A **temporary** is a value whose slot was claimed from the pools.  Between the op
that computes it and an op that uses it nothing writes its slot:

* no op in between claims the slot, for its life is not over;
* no op in between is an assignment, and none is a value that goes straight into
  a variable, for such a value is followed by its assignment at once;
* what is passed to a function that is called in between, and all that this
  function does, goes to windows above.

The first needs the last uses, the second the shape of flat code, the third the
call tree.  The slot is not pinned, so no local has it either.
-/

namespace Stackless

open Flat (Op Instruction Offset File Width Function codeOf Shaped Trims Passing)
open Calls (CallTree Forest)
open Storage (Pools Visit Framing SameBut)

namespace Flat

/-- A body that is a piece of code in which jumps were sent elsewhere and
instructions taken out. -/
def Drawn (code : List Instruction) (body : List Op) : Prop :=
  ∀ (i : Nat) op, body[i]? = some op → op.instruction = .removed ∨
    ∃ instr target, code[i]? = some instr ∧ op.instruction = instr.retarget target

namespace Drawn

variable {code : List Instruction} {body : List Op}

theorem refl (body : List Op) : Drawn (codeOf body) body := by
  intro i op hop
  obtain ⟨target, heq⟩ := op.exists_redirect_eq
  exact .inr ⟨op.instruction, target, Flat.codeOf_getElem? hop, congrArg Op.instruction heq⟩

/-- A body with the same instructions, or fewer, is drawn from the same code. -/
theorem of_kept {body' : List Op} (h : Drawn code body)
    (hkept : ∀ (i : Nat) op', body'[i]? = some op' → ∃ op, body[i]? = some op ∧
      (op'.instruction = op.instruction ∨ op'.instruction = .removed)) : Drawn code body' := by
  intro i op' hop'
  obtain ⟨op, hop, heq | heq⟩ := hkept i op' hop'
  · rw [heq]
    exact h i op hop
  · exact .inl heq

/-- A trimmed body is drawn from the same code. -/
theorem trims {body' : List Op} {may : Instruction → Bool} (h : Drawn code body)
    (htrims : Trims may body body') : Drawn code body' := by
  intro i op' hop'
  obtain ⟨op, hop, htrim⟩ := htrims.exists_old hop'
  rcases htrim with ⟨_, rfl⟩ | ⟨target, rfl⟩
  · exact .inl rfl
  · rcases h i op hop with hremoved | ⟨instr, target', hinstr, heq⟩
    · refine .inl ?_
      rw [Op.redirect, hremoved]
      rfl
    · refine .inr ⟨instr, target, hinstr, ?_⟩
      rw [Op.redirect, heq]
      cases instr <;> rfl

/-- Operands are those of the code. -/
theorem operand (h : Drawn code body) {j r : Nat} {op : Op} (hop : body[j]? = some op)
    (hr : r ∈ op.instruction.operands) : ∃ user, code[j]? = some user ∧ r ∈ user.operands := by
  rcases h j op hop with hremoved | ⟨instr, target, hinstr, heq⟩
  · rw [hremoved] at hr
    cases hr
  · refine ⟨instr, hinstr, ?_⟩
    rw [heq] at hr
    cases instr <;> exact hr

/-- A live op that goes nowhere has the instruction of the code. -/
theorem plain (h : Drawn code body) {k : Nat} {op : Op} (hop : body[k]? = some op)
    (hlive : op.instruction ≠ .removed) (htarget : op.instruction.target? = none) :
    code[k]? = some op.instruction := by
  rcases h k op hop with hremoved | ⟨instr, target, hinstr, heq⟩
  · exact absurd hremoved hlive
  · rw [hinstr, heq]
    rw [heq] at htarget
    cases instr with
    | jump | branch => cases htarget
    | _ => rfl

end Drawn

/-- **Nothing between a value and its user is a value that is assigned.**  The user
would stand between that value and its assignment, or be the assignment. -/
theorem Shaped.not_assigned_between {code : List Instruction} (h : Shaped 0 code) {i j k u : Nat}
    {user : Instruction} {op : Option Model.MathOp} {width : Width} {target : Nat}
    (huser : code[j]? = some user) (hi : i ∈ user.operands)
    (hassign : code[u]? = some (.assign op width target k)) (hik : i < k) (hkj : k < j) : False := by
  obtain ⟨hkt, hbehind⟩ := h.assign u op width target k hassign
  have hku := (h.operand u _ hassign k (by simp [Instruction.operands])).2
  rcases Nat.lt_trichotomy u j with huj | rfl | hju
  · have := h.inner j user huser i hi u _ (by omega) huj hassign
    cases this
  · rw [hassign] at huser
    cases huser
    rcases List.mem_cons.mp hi with rfl | hi
    · omega
    · rw [List.mem_singleton.mp hi] at hik
      omega
  · have := hbehind j user (by omega) hju huser i hi
    omega

/-- Code of the right shape passes parameters to calls. -/
theorem Shaped.passing {body : List Op} (h : Shaped 0 (codeOf body)) : Passing body := by
  intro i op function name value hop hparam
  obtain ⟨instr, hinstr, hserves⟩ := h.pass i function name value
    (by rw [Flat.codeOf_getElem? hop, hparam])
  obtain ⟨next, hnext, rfl⟩ := Flat.exists_of_codeOf_getElem? hinstr
  exact ⟨next, hnext, hserves⟩

/-- Whether parameters are passed to calls is a matter of the instructions. -/
theorem Passing.of_codeOf_eq {body body' : List Op} (h : Passing body)
    (heq : codeOf body' = codeOf body) : Passing body' := by
  intro i op function name value hop hparam
  have hinstr := Flat.codeOf_getElem? hop
  rw [heq] at hinstr
  obtain ⟨old, hold, hsame⟩ := Flat.exists_of_codeOf_getElem? hinstr
  obtain ⟨next, hnext, hserves⟩ := h i old function name value hold (hsame.trans hparam)
  have hnext' := Flat.codeOf_getElem? hnext
  rw [← heq] at hnext'
  obtain ⟨new, hnew, hsame'⟩ := Flat.exists_of_codeOf_getElem? hnext'
  exact ⟨new, hnew, hsame' ▸ hserves⟩

/-- A parameter that is passed is passed to a call. -/
theorem Passing.exists_call {body : List Op} (h : Passing body) {k : Nat} {op : Op}
    {function name : String} {value : Nat} (hop : body[k]? = some op)
    (hparam : op.instruction = .parameter function name value) :
    ∃ call ∈ body, ∃ result, call.instruction = .call function result := by
  induction hn : body.length - k using Nat.strongRecOn generalizing k op name value with
  | ind n ih =>
      obtain ⟨next, hnext, hserves⟩ := h k op function name value hop hparam
      have hlt := (List.getElem?_eq_some_iff.mp hnext).1
      cases hinstr : next.instruction with
      | parameter function' name' value' =>
          rw [hinstr] at hserves
          have heq : function' = function := of_decide_eq_true hserves
          exact ih _ (by omega) hnext (heq ▸ hinstr) rfl
      | call function' result =>
          rw [hinstr] at hserves
          have heq : function' = function := of_decide_eq_true hserves
          exact ⟨next, List.mem_of_getElem? hnext, result, heq ▸ hinstr⟩
      | _ =>
          rw [hinstr] at hserves
          cases hserves

/-- No op of a simplified body has an offset. -/
theorem unresolved_of_settle {ctx : Context} {label : String} {n : Nat} {flat body : List Op}
    (hflat : flatBody ctx = .ok flat) (hsettle : settle label n (withLastUses flat) = .ok body) :
    ∀ op ∈ withLastUses body, op.offset = .unresolved := by
  intro op' hop'
  obtain ⟨i, hi⟩ := List.mem_iff_getElem?.mp hop'
  obtain ⟨op, hop, rfl⟩ := exists_of_withLastUses hi
  obtain ⟨old, hold, htrim⟩ := (settle_trims hsettle).exists_old hop
  obtain ⟨first, hfirst, rfl⟩ := exists_of_withLastUses hold
  have hnone := unresolved_of_flatBody hflat first (List.mem_of_getElem? hfirst)
  rcases htrim with ⟨_, rfl⟩ | ⟨target, rfl⟩
  · exact hnone
  · exact hnone

end Flat

namespace Stages

variable {model : Model.Program} {c : Compilation}

/-- What the phases made of one function that is reached: its source, and the flat function behind
each phase, under one label. -/
structure Member (s : Stages model c) (label : String) where
  source : Model.Function
  simple : Function
  framed : Function
  raised : Function
  final : Function
  source_eq : model.function label = .ok source
  simple_eq : s.simple.find? label = some simple
  framed_eq : s.storage.framed.find? label = some framed
  final_eq : c.program.find? label = some final
  framing : Framing s.storage.cursors.addresses source simple framed
  raised_same : SameBut framed raised
  anchor_eq : Storage.anchor raised = .ok final

/-- Every function that is reached went through the phases. -/
theorem exists_member (s : Stages model c) {label : String} (h : label ∈ c.forest.reachable) :
    Nonempty (s.Member label) := by
  obtain ⟨source, f, g, hsource, hf, hframe, hg, _⟩ := s.find?_framed h
  obtain ⟨g', k, r, F, hg', _, _, hgk, hkr, hanchor, hF⟩ := s.find?_final h
  rw [hg] at hg'
  cases hg'
  obtain ⟨framing⟩ := Storage.framing_of_frame hframe
  exact ⟨⟨source, f, g, r, F, hsource, hf, hg, hF, framing, hgk.trans hkr, hanchor⟩⟩

namespace Member

variable {s : Stages model c} {label : String} (m : s.Member label)

/-- **What a simplified function is drawn from.**  There is code of the right shape,
of which the body is drawn; the body's last uses are its own, its parameters are
passed to calls, and its ops have no offset. -/
theorem exists_code : ∃ code body, Shaped 0 code ∧ m.simple.body = Flat.withLastUses body ∧
    Flat.Drawn code m.simple.body ∧ Passing m.simple.body ∧
    ∀ op ∈ m.simple.body, op.offset = .unresolved := by
  obtain ⟨f0, hf0, hsimp⟩ := Table.find?_mapM_rev s.simple_eq m.simple_eq
  obtain ⟨_, _, source, _, _, hof⟩ := Flat.exists_of_find?_ofModel s.flat_eq hf0
  obtain ⟨flat, hflat, hf0⟩ := bind_eq_ok.mp hof
  cases hf0
  obtain ⟨body, hsettle, _, hsimple⟩ := Flat.simplify_eq_ok hsimp
  have hbody : m.simple.body = Flat.withLastUses body := by rw [hsimple]
  have htrims : Trims (fun _ => true) (Flat.withLastUses flat) body := Flat.settle_trims hsettle
  have hcode := Flat.codeOf_withLastUses flat
  have hshaped := Flat.shaped_of_flatBody hflat
  rw [← hcode] at hshaped
  refine ⟨_, body, hshaped, hbody, ?_, ?_, ?_⟩
  · rw [hbody]
    refine ((Flat.Drawn.refl _).trims htrims).of_kept fun i op' hop' => ?_
    obtain ⟨op, hop, rfl⟩ := Flat.exists_of_withLastUses hop'
    exact ⟨op, hop, .inl rfl⟩
  · rw [hbody]
    have hpassing := Flat.keptBySteps_passing.settle hshaped.passing hsettle
    exact hpassing.of_codeOf_eq (Flat.codeOf_withLastUses body)
  · rw [hbody]
    exact Flat.unresolved_of_settle hflat hsettle

/-- The final windows are those that were placed, and count the slots of the frame. -/
theorem window_final (file : File) :
    m.final.window file = m.raised.window file ∧
      (m.final.window file).count = (m.framing.pools.pool file).count := by
  have hsame := Storage.window_of_anchor m.anchor_eq file
  refine ⟨hsame, ?_⟩
  rw [hsame, m.raised_same.count_eq]
  exact m.framing.result.2.2 file

/-- The body that is anchored is the one that was visited. -/
theorem raised_body : m.raised.body = m.framing.body := by
  obtain ⟨_, _, hraised⟩ := m.raised_same
  rw [hraised]
  exact m.framing.result.1

/-- The locals that are anchored are those that the visit knew. -/
theorem raised_locals : m.raised.locals = m.framing.visit.scope.locals := by
  obtain ⟨_, _, hraised⟩ := m.raised_same
  rw [hraised]
  exact m.framing.result.2.1

/-- **From the visit to the end.**  A final op has the instruction of the op that was
visited, and the address of the offset that the visit gave it. -/
theorem visited {i : Nat} {op' : Op} (h : m.final.body[i]? = some op') :
    ∃ op offset pools next, m.framing.visit.body[i]? = some op ∧
      op'.instruction = op.instruction ∧
      m.framing.visit.offset pools i (op.lastUse.getD i) op.instruction = .ok (offset, next) ∧
      m.framing.body[i]? = some { op with offset := offset.getD op.offset } ∧
      Storage.anchorOffset m.raised.registers m.raised.bits (offset.getD op.offset) =
        .ok op'.offset := by
  obtain ⟨body, locals, hbody, _, hfinal⟩ := Storage.anchor_eq_ok m.anchor_eq
  have h : body[i]? = some op' := by
    rw [hfinal] at h
    exact h
  obtain ⟨mid, hmid, hanchor⟩ := exists_of_mapM_getElem? hbody h
  obtain ⟨address, haddress, hanchor⟩ := bind_eq_ok.mp hanchor
  cases hanchor
  rw [m.raised_body] at hmid
  have hops := Visit.ops_getElem? m.framing.ops_eq i
  rw [Nat.zero_add] at hops
  cases hop : m.framing.visit.body[i]? with
  | none =>
      rw [hops.1 hop] at hmid
      cases hmid
  | some op =>
      obtain ⟨offset, pools, next, hoffset, hout⟩ := hops.2 op hop
      rw [hmid] at hout
      cases hout
      exact ⟨op, offset, pools, next, rfl, rfl, hoffset, hmid, haddress⟩

/-- What reading ports straight into variables did to the body. -/
theorem ported : Storage.Ported m.simple.body m.framing.visit.body m.framing.visit.passed :=
  Storage.ported_of_passPorts m.framing.pass_eq

/-- A live final op was there when the function had been simplified. -/
theorem simple_of_final {i : Nat} {op' : Op} (h : m.final.body[i]? = some op')
    (hlive : op'.instruction ≠ .removed) :
    ∃ op, m.simple.body[i]? = some op ∧ op.instruction = op'.instruction := by
  obtain ⟨mid, _, _, _, hmid, hinstr, _⟩ := m.visited h
  obtain ⟨op, hop⟩ := m.ported.exists_old hmid
  refine ⟨op, hop, ?_⟩
  rcases (m.ported.kept i op mid hop hmid).2.1 with heq | heq
  · exact (hinstr.trans heq).symm
  · exact absurd (hinstr.trans heq) hlive

/-- The final body is drawn from the code of the simplified one. -/
theorem drawn_final {code : List Instruction} (h : Flat.Drawn code m.simple.body) :
    Flat.Drawn code m.final.body := by
  refine h.of_kept fun i op' hop' => ?_
  obtain ⟨mid, _, _, _, hmid, hinstr, _⟩ := m.visited hop'
  obtain ⟨op, hop⟩ := m.ported.exists_old hmid
  refine ⟨op, hop, ?_⟩
  rw [hinstr]
  exact (m.ported.kept i op mid hop hmid).2.1

/-- The last use of a visited op is not before any use in the end. -/
theorem le_last_use {body : List Op} (hbody : m.simple.body = Flat.withLastUses body) {i j : Nat}
    {op user : Op} (hop : m.framing.visit.body[i]? = some op) (huser : m.final.body[j]? = some user)
    (hi : i ∈ user.instruction.operands) : j ≤ op.lastUse.getD i := by
  have hlive : user.instruction ≠ .removed := by
    intro heq
    rw [heq] at hi
    cases hi
  obtain ⟨user', huser', hinstr⟩ := m.simple_of_final huser hlive
  obtain ⟨old, hold⟩ := m.ported.exists_old hop
  rw [(m.ported.kept i old op hold hop).1]
  rw [hbody] at huser' hold
  obtain ⟨first, hfirst, rfl⟩ := Flat.exists_of_withLastUses huser'
  obtain ⟨before, hbefore, rfl⟩ := Flat.exists_of_withLastUses hold
  exact Storage.le_last_use hfirst (hinstr ▸ hi)

/-- The slots that are pinned in a file. -/
def pins (file : File) : Nat :=
  ((Storage.pinResult m.framing.pinned m.framing.symbols m.source.returns).1.pool file).count

theorem pinned : Storage.Pinned
    (Storage.pinResult m.framing.pinned m.framing.symbols m.source.returns).1
    m.framing.visit.scope.locals :=
  m.framing.locals_pinned (s.simple_storage m.simple_eq).2.2

/-- The address of a slot of the frame. -/
def address (file : File) (slot : Nat) : Nat :=
  (m.final.window file).base + (m.final.window file).count - slot - 1

/-- When slots of a file are used again. -/
def reuse (file : File) : Storage.Reuse :=
  ((Storage.pinResult m.framing.pinned m.framing.symbols m.source.returns).1.pool file).reuse

/-- **The slot of a temporary.**  It is counted but not pinned, the final op has its
address, and no op that claims before its life is over has the same slot. -/
theorem claimed_until {i : Nat} {width : Width} {op : Op} (hop : m.framing.visit.body[i]? = some op)
    (hclaims : m.framing.visit.ClaimsAt i op width) :
    ∃ slot, m.pins width.file ≤ slot ∧ slot < (m.final.window width.file).count ∧
      (∀ op', m.final.body[i]? = some op' → op'.offset = .absolute (m.address width.file slot)) ∧
      ∀ k mid widthk op', i < k → (m.reuse width.file).expired (op.lastUse.getD i) k = false →
        m.framing.visit.body[k]? = some mid → m.framing.visit.ClaimsAt k mid widthk → m.final.body[k]? = some op' →
        widthk.file = width.file → op'.offset ≠ .absolute (m.address width.file slot) := by
  obtain ⟨hwindow, hcount⟩ := m.window_final width.file
  have hspec := Visit.ops_spec m.pinned.sound m.framing.ops_eq
  have hanchor : ∀ {n : Nat} {mid out op' : Op} {file : File} {slot : Nat},
      m.framing.visit.body[n]? = some mid → m.framing.body[n]? = some out →
      out.offset = .relative file slot → m.final.body[n]? = some op' →
      op'.offset = .absolute (m.address file slot) := by
    intro n mid out op' file slot hmid hout hoffset hop'
    obtain ⟨mid', offset, _, _, hmid', _, _, hout', haddress⟩ := m.visited hop'
    rw [hout] at hout'
    cases hout'
    have hoffset : offset.getD mid'.offset = .relative file slot := hoffset
    rw [hoffset] at haddress
    rw [address, (m.window_final file).1]
    exact (Storage.anchorOffset_relative haddress).2
  obtain ⟨slot, out, hout, hoffset, hpins, hlt, hothers⟩ :=
    hspec i op width hop (by rw [Nat.zero_add]; exact hclaims)
  refine ⟨slot, hpins, by rw [hcount]; exact hlt, fun op' hop' => hanchor hop hout hoffset hop', ?_⟩
  intro k mid widthk op' hik hlast hmid hclaimk hop' hfile heq
  obtain ⟨slotk, outk, houtk, hoffsetk, _, hltk, _⟩ :=
    hspec k mid widthk hmid (by rw [Nat.zero_add]; exact hclaimk)
  rw [hanchor hmid houtk hoffsetk hop', hfile] at heq
  have haddress := Offset.absolute.inj heq
  have hslot : slotk = slot := by
    rw [hfile, ← hcount] at hltk
    rw [← hcount] at hlt
    simp only [address] at haddress
    omega
  rw [hslot, hfile] at hoffsetk
  refine hothers k mid widthk outk hik ?_ hmid (by rw [Nat.zero_add]; exact hclaimk) houtk hoffsetk
  rw [Nat.zero_add, Nat.zero_add]
  exact hlast

/-- No op that claims before the last use of a temporary has the same slot. -/
theorem claimed {i : Nat} {width : Width} {op : Op} (hop : m.framing.visit.body[i]? = some op)
    (hclaims : m.framing.visit.ClaimsAt i op width) :
    ∃ slot, m.pins width.file ≤ slot ∧ slot < (m.final.window width.file).count ∧
      (∀ op', m.final.body[i]? = some op' → op'.offset = .absolute (m.address width.file slot)) ∧
      ∀ k mid widthk op', i < k → k < op.lastUse.getD i → m.framing.visit.body[k]? = some mid →
        m.framing.visit.ClaimsAt k mid widthk → m.final.body[k]? = some op' →
        widthk.file = width.file → op'.offset ≠ .absolute (m.address width.file slot) := by
  obtain ⟨slot, hpins, hlt, haddress, hothers⟩ := m.claimed_until hop hclaims
  refine ⟨slot, hpins, hlt, haddress, fun k mid widthk op' hik hlast => ?_⟩
  exact hothers k mid widthk op' hik (Storage.SlotPool.not_expired hlast)

/-- **Where a value goes.**  An op that computes a value and has an address claimed
its slot, or is the value of an assignment. -/
theorem claims_or_assigned {code : List Instruction} (hdrawn : Flat.Drawn code m.simple.body)
    (hnone : ∀ op ∈ m.simple.body, op.offset = .unresolved) {k address : Nat} {op' : Op}
    {file : File} (hop' : m.final.body[k]? = some op')
    (hfile : op'.instruction.resultFile? = some file) (haddress : op'.offset = .absolute address) :
    (∃ mid width, m.framing.visit.body[k]? = some mid ∧ m.framing.visit.ClaimsAt k mid width ∧
        width.file = file) ∨
      ∃ (u : Nat) (op : Option Model.MathOp) (width : Width) (target : Nat),
        code[u]? = some (.assign op width target k) := by
  obtain ⟨mid, offset, pools, next, hmid, hinstr, hoffset, _, hanchor⟩ := m.visited hop'
  obtain ⟨old, hold⟩ := m.ported.exists_old hmid
  obtain ⟨_, hkept, hmoved⟩ := m.ported.kept k old mid hold hmid
  rw [hinstr] at hfile
  have hassign : ∀ {u : Nat} {width : Width} {target : Nat} {op : Op}, m.simple.body[u]? = some op →
      op.instruction = .assign none width target k →
      code[u]? = some (.assign none width target k) := by
    intro u width target op hop heq
    rw [← heq]
    exact hdrawn.plain hop (by rw [heq]; nofun) (by rw [heq]; rfl)
  rcases Visit.offset_cases hoffset with ⟨width, hclaims, hwidth, _⟩ |
      ⟨_, _, hresult | ⟨rfl, hport⟩ | ⟨var, hcopy⟩⟩
  · rw [hfile] at hwidth
    exact .inl ⟨mid, width, hmid, hclaims, (Option.some.inj hwidth).symm⟩
  · rw [hfile] at hresult
    cases hresult
  · rcases hmoved with hsame | ⟨var, hvar⟩
    · -- no offset was given before the visit, nor by it
      rw [Option.getD_none, hsame, hnone old (List.mem_of_getElem? hold), haddress] at hanchor
      cases hanchor
    · have hmidPort : mid.instruction = .portIn var := by
        rcases hkept with heq | heq
        · exact heq.trans hvar
        · rw [heq] at hfile
          cases hfile
      obtain ⟨u, op, target, hop, heq⟩ := m.ported.assigned k (hport var hmidPort)
      exact .inr ⟨u, none, .word, target, hassign hop heq⟩
  · obtain ⟨op, target, hop, heq⟩ := Storage.copyTarget?_eq_some hcopy
    obtain ⟨first, hfirst⟩ := m.ported.exists_old hop
    refine .inr ⟨_, none, .bit, target, hassign hfirst ?_⟩
    rcases (m.ported.kept _ first op hfirst hop).2.1 with hsame | hsame
    · exact hsame ▸ heq
    · rw [heq] at hsame
      cases hsame

/-- Claims only add to the slots that are pinned. -/
theorem pins_le (file : File) : m.pins file ≤ (m.final.window file).count := by
  rw [(m.window_final file).2]
  exact (Visit.ops_sound m.pinned.sound m.framing.ops_eq).2 file

/-- **The addresses of the locals.**  Every local has a pinned slot, and in the end
its address. -/
theorem local_slot {name : String} {offset : Offset} (h : m.final.locals.find? name = some offset) :
    ∃ file slot, m.framed.locals.find? name = some (.relative file slot) ∧ slot < m.pins file ∧
      offset = .absolute (m.address file slot) := by
  obtain ⟨_, locals, _, hlocals, hfinal⟩ := Storage.anchor_eq_ok m.anchor_eq
  have h : locals.find? name = some offset := by
    rw [hfinal] at h
    exact h
  obtain ⟨before, hbefore, hanchor⟩ := Table.find?_mapM_rev hlocals h
  rw [m.raised_locals] at hbefore
  obtain ⟨file, slot, rfl, hlt⟩ := m.pinned.slots name before hbefore
  refine ⟨file, slot, m.framing.result.2.1 ▸ hbefore, hlt, ?_⟩
  rw [address, (m.window_final file).1]
  exact (Storage.anchorOffset_relative hanchor).2

/-- The address of a slot that is counted belongs to the window. -/
theorem holds_address {file : File} {slot : Nat} (h : slot < (m.final.window file).count) :
    (m.final.window file).Holds (m.address file slot) := by
  unfold Flat.Window.Holds address
  omega

end Member

/-- The cell of a local: its file and its address. -/
def localCell? (s : Stages model c) (label name : String) : Option (File × Nat) := do
  let framed ← s.storage.framed.find? label
  let final ← c.program.find? label
  match framed.locals.find? name, final.locals.find? name with
  | some (.relative file _), some (.absolute address) => some (file, address)
  | _, _ => none

/-- The cell that an op of a function writes: that of its value, of the variable that
it assigns to, or of the parameter that it passes. -/
def written? (s : Stages model c) (f : Function) (op : Op) : Option (File × Nat) :=
  match op.instruction with
  | .assign _ _ target _ =>
    match f.body[target]? with
    | some ⟨.register _, .absolute address, _, _⟩ => some (.register, address)
    | some ⟨.bit _, .absolute address, _, _⟩ => some (.bit, address)
    | _ => none
  | .parameter function name _ => s.localCell? function name
  | instruction =>
    match instruction.resultFile?, op.offset with
    | some file, .absolute address => some (file, address)
    | _, _ => none

/-- Every local of a function has a cell, with a pinned slot. -/
theorem Member.localCell?_eq_some {s : Stages model c} {label name : String} (m : s.Member label)
    {offset : Offset} (h : m.final.locals.find? name = some offset) :
    ∃ file slot, s.localCell? label name = some (file, m.address file slot) ∧ slot < m.pins file ∧
      offset = .absolute (m.address file slot) := by
  obtain ⟨file, slot, hframed, hlt, rfl⟩ := m.local_slot h
  refine ⟨file, slot, ?_, hlt, rfl⟩
  simp only [localCell?, m.framed_eq, m.final_eq, Option.bind_eq_bind, Option.bind_some, hframed, h]

/-- The cell of a local is that of its pinned slot. -/
theorem Member.slot_of_localCell? {s : Stages model c} {label name : String} (m : s.Member label)
    {file : File} {address : Nat} (h : s.localCell? label name = some (file, address)) :
    ∃ slot, m.framing.visit.scope.locals.find? name = some (.relative file slot) ∧
      slot < m.pins file ∧ address = m.address file slot := by
  cases hlocal : m.final.locals.find? name with
  | none =>
      simp [localCell?, m.framed_eq, m.final_eq, hlocal] at h
  | some offset =>
      obtain ⟨file', slot, hframed, hlt, rfl⟩ := m.local_slot hlocal
      simp only [localCell?, m.framed_eq, m.final_eq, Option.bind_eq_bind, Option.bind_some,
        hframed, hlocal, Option.some.injEq] at h
      cases h
      exact ⟨slot, m.framing.result.2.1 ▸ hframed, hlt, rfl⟩

/-- A cell of a local belongs to the window of its function. -/
theorem Member.holds_of_localCell? {s : Stages model c} {label name : String} (m : s.Member label)
    {file : File} {address : Nat} (h : s.localCell? label name = some (file, address)) :
    ∃ slot, slot < m.pins file ∧ address = m.address file slot ∧
      (m.final.window file).Holds address := by
  obtain ⟨slot, _, hlt, rfl⟩ := m.slot_of_localCell? h
  exact ⟨slot, hlt, rfl, m.holds_address (Nat.lt_of_lt_of_le hlt (m.pins_le file))⟩

/-- **No two locals have one cell.**  Pinned slots are different, and anchoring gives different
slots of one window different addresses. -/
theorem Member.localCell?_inj {s : Stages model c} {label name name' : String} (m : s.Member label)
    {file : File} {address : Nat} (h : s.localCell? label name = some (file, address))
    (h' : s.localCell? label name' = some (file, address)) : name = name' := by
  obtain ⟨slot, hfind, hlt, haddress⟩ := m.slot_of_localCell? h
  obtain ⟨slot', hfind', hlt', haddress'⟩ := m.slot_of_localCell? h'
  have hsame : slot = slot' := by
    have hle := m.pins_le file
    unfold Member.address at haddress haddress'
    omega
  exact m.pinned.distinct name name' _ hfind (hsame ▸ hfind')

/-- The callees of a function that is reached stand under it in the main line. -/
theorem exists_callee (s : Stages model c) {label callee : String} {f : Function} {op : Op}
    {result : Option Width} (hlabel : label ∈ c.forest.reachable)
    (hf : s.simple.find? label = some f) (hop : op ∈ f.body)
    (hcall : op.instruction = .call callee result) :
    ∃ t child, CallTree.Within t c.forest.main ∧ t.name = label ∧ child ∈ t.calls ∧
      child.name = callee := by
  have hmem : callee ∈ f.calls.map (·.1) := by
    refine List.mem_map.mpr ⟨(callee, op.position), ?_, rfl⟩
    refine List.mem_filterMap.mpr ⟨op, hop, ?_⟩
    rw [hcall]
  rcases s.rooted.mem_reachable_iff.mp hlabel with ⟨t, ht, rfl⟩ | ⟨t, ht, rfl⟩
  · obtain ⟨child, hchild, hname⟩ := (s.rooted.main_unfolds.within ht).exists_child hf hmem
    exact ⟨t, child, ht, rfl, hchild, hname⟩
  · -- a handler makes no call
    obtain ⟨child, hchild, _⟩ := (s.rooted.handler_unfolds t ht).exists_child hf hmem
    rw [s.rooted.handler_eq ht] at hchild
    cases hchild

/-- **Calls.**  Whatever a call does stays in windows above the caller's. -/
theorem Member.callee_apart {s : Stages model c} {label : String} (m : s.Member label)
    (hlabel : label ∈ c.forest.reachable) {op : Op} {callee : String} {result : Option Width}
    (hop : op ∈ m.simple.body) (hcall : op.instruction = .call callee result) :
    c.forest.main.Occurs callee ∧
      ∀ t, CallTree.Within t c.forest.main → t.name = callee → ∀ g, t.Occurs g →
        ∃ G, c.program.find? g = some G ∧
          ∀ file, (m.final.window file).Apart (G.window file) := by
  obtain ⟨caller, child, hcaller, hname, hchild, hcallee⟩ :=
    s.exists_callee hlabel m.simple_eq hop hcall
  have hwithin : CallTree.Within child c.forest.main := by
    cases caller with
    | node name calls => exact CallTree.Within.trans (.under hchild .refl) hcaller
  refine ⟨⟨child, hwithin, hcallee⟩, fun t ht htname g hg => ?_⟩
  have htree : t = child := (s.rooted.main_unfolds.within ht).eq_of_name_eq child
    (s.rooted.main_unfolds.within hwithin) (htname.trans hcallee.symm)
  subst htree
  obtain ⟨F, G, hF, hG, hle⟩ := s.chain_le ⟨caller, t, hcaller, hname, hchild, hg⟩
  rw [m.final_eq] at hF
  cases hF
  exact ⟨G, hG, fun file => Flat.Window.apart_of_le (hle file)⟩

/-- What a function is called with is kept above the caller's window. -/
theorem Member.parameter_apart {s : Stages model c} {label : String} (m : s.Member label)
    (hlabel : label ∈ c.forest.reachable) (hpassing : Passing m.simple.body) {k value address : Nat}
    {op : Op} {function name : String} {file : File} (hop : m.simple.body[k]? = some op)
    (hparam : op.instruction = .parameter function name value)
    (hcell : s.localCell? function name = some (file, address)) :
    ¬(m.final.window file).Holds address := by
  intro hholds
  obtain ⟨call, hcallmem, result, hcall⟩ := hpassing.exists_call hop hparam
  obtain ⟨hoccurs, hapart⟩ := m.callee_apart hlabel hcallmem hcall
  obtain ⟨callee⟩ := s.exists_member (s.reachable_of_occurs hoccurs)
  obtain ⟨t, ht, htname⟩ := hoccurs
  obtain ⟨G, hG, hwindows⟩ := hapart t ht htname function ⟨t, .refl, htname⟩
  rw [callee.final_eq] at hG
  cases hG
  obtain ⟨slot, _, _, hcallee⟩ := callee.holds_of_localCell? hcell
  exact hwindows file address hholds hcallee

end Stages

/-- **A temporary keeps its value until it is used last.**  Take a function that is
reached in an accepted build, an op `i` of it that claims a slot, and an op `j` that
uses its value.  Then no op between the two writes the slot; no call between the two
reaches a function with a window that holds it; and no local of the function has it. -/
theorem temporaries_keep_their_values {model : Model.Program} {c : Compilation}
    (h : build model = .ok c) :
    Nonempty (Stages model c) ∧ ∀ (s : Stages model c), ∀ label ∈ c.layout.order,
      Nonempty (s.Member label) ∧ ∀ (m : s.Member label) (i j : Nat) (width : Width) (opi opj : Op),
        m.framing.visit.Claims i width → m.final.body[i]? = some opi →
        m.final.body[j]? = some opj → i ∈ opj.instruction.operands →
        ∃ address, opi.offset = .absolute address ∧ (m.final.window width.file).Holds address ∧
          (∀ k opk, i < k → k < j → m.final.body[k]? = some opk →
            s.written? m.final opk ≠ some (width.file, address) ∧
            ∀ callee result, opk.instruction = .call callee result →
              c.forest.main.Occurs callee ∧
              ∀ t, CallTree.Within t c.forest.main → t.name = callee → ∀ g, t.Occurs g →
                ∃ G, c.program.find? g = some G ∧ ¬(G.window width.file).Holds address) ∧
          ∀ name offset, m.final.locals.find? name = some offset →
            ∃ cell, s.localCell? label name = some cell ∧ offset = .absolute cell.2 ∧
              cell ≠ (width.file, address) := by
  refine ⟨stages_of_build h, fun s label hlabel => ?_⟩
  rw [s.order_eq] at hlabel
  refine ⟨s.exists_member hlabel, ?_⟩
  rintro m i j width opi opj ⟨op, hop, hclaims⟩ hopi hopj hi
  obtain ⟨code, body, hshaped, hbody, hdrawn, hpassing, hnone⟩ := m.exists_code
  obtain ⟨slot, hpins, hlt, haddress, hothers⟩ := m.claimed hop hclaims
  have hlast := m.le_last_use hbody hop hopj hi
  obtain ⟨user, huser, hiuser⟩ := (m.drawn_final hdrawn).operand hopj hi
  refine ⟨_, haddress opi hopi, m.holds_address hlt, ?_, ?_⟩
  · intro k opk hik hkj hopk
    constructor
    · intro hwritten
      unfold Stages.written? at hwritten
      split at hwritten
      · rename_i hinstr
        have hcode := (m.drawn_final hdrawn).plain hopk (by rw [hinstr]; nofun) (by rw [hinstr]; rfl)
        have hinner := hshaped.inner j user huser i hiuser k _ (by omega) hkj hcode
        rw [hinstr] at hinner
        cases hinner
      · rename_i function name value hinstr
        obtain ⟨old, hold, hsame⟩ := m.simple_of_final hopk (by rw [hinstr]; nofun)
        exact m.parameter_apart hlabel hpassing hold (hsame.trans hinstr) hwritten
          (m.holds_address hlt)
      · split at hwritten
        · rename_i file address hfile hoffset
          cases hwritten
          rcases m.claims_or_assigned hdrawn hnone hopk hfile hoffset with
            ⟨mid, widthk, hmid, hclaimk, hwidth⟩ | ⟨u, _, _, target, hassign⟩
          · exact hothers k mid widthk opk hik (by omega) hmid hclaimk hopk hwidth hoffset
          · exact hshaped.not_assigned_between huser hiuser hassign hik hkj
        · cases hwritten
    · intro callee result hcall
      obtain ⟨old, hold, hsame⟩ := m.simple_of_final hopk (by rw [hcall]; nofun)
      obtain ⟨hoccurs, hapart⟩ :=
        m.callee_apart hlabel (List.mem_of_getElem? hold) (hsame.trans hcall)
      refine ⟨hoccurs, fun t ht htname g hg => ?_⟩
      obtain ⟨G, hG, hwindows⟩ := hapart t ht htname g hg
      exact ⟨G, hG, hwindows width.file _ (m.holds_address hlt)⟩
  · intro name offset hname
    obtain ⟨file, slot', hcell, hlt', hoffset⟩ := m.localCell?_eq_some hname
    refine ⟨_, hcell, hoffset, fun heq => ?_⟩
    have hfile : file = width.file := congrArg Prod.fst heq
    subst hfile
    have hsame : m.address width.file slot' = m.address width.file slot := congrArg Prod.snd heq
    unfold Stages.Member.address at hsame
    omega

/-- A program whose entry multiplies a sum by what a function gives. -/
def heldSum : Model.Program :=
  let word : Model.Symbol := .word
  let entry : Model.Function :=
    ({ label := "demo.main" } : Model.Function).addSymbol "x" word |>.addSymbol "y" word
      |>.withBody [.assign (.var "x") none
        (.binary .mul (.binary .add (.var "x") (.var "y")) (.call "f" [.var "x"]))]
  let f : Model.Function :=
    ({ label := "demo.f", returns := some .int } : Model.Function).addParameter "n" .int
      |>.withBody [.ret (some (.var "n"))]
  let demo : Model.Module := (({} : Model.Module).addFunction entry).addFunction f
  { name := "demo", modules := Table.empty.insert "demo" demo }

/-- The sum of `heldSum` waits for the call in a cell that the callee does not have. -/
theorem temporaries_keep_their_values_heldSum :
    ∃ c, build heldSum = .ok c ∧ ∃ F G sum address, c.program.find? "demo.main" = some F ∧
      c.program.find? "demo.f" = some G ∧ F.body[3]? = some sum ∧
      sum.instruction = .math .add .word 1 (some 2) ∧ sum.offset = .absolute address ∧
      ¬(G.window .register).Holds address := by
  have hshape : (build heldSum).toOption.map (fun c =>
      (c.layout.order, (c.program.find? "demo.main").map fun F => codeOf F.body)) =
      some (["demo.main", "demo.f"], some [.marker "demo.main", .register (.localVar "x"),
        .register (.localVar "y"), .math .add .word 1 (some 2), .register (.localVar "x"),
        .parameter "demo.f" "n" 4, .call "demo.f" (some .word), .math .mul .word 3 (some 6),
        .register (.localVar "x"), .assign none .word 8 7, .ret none]) := by decide +kernel
  cases hbuild : build heldSum with
  | error e =>
      rw [hbuild] at hshape
      cases hshape
  | ok c =>
      rw [hbuild] at hshape
      have hpair := Option.some.inj hshape
      have horder : "demo.main" ∈ c.layout.order := by
        rw [show c.layout.order = ["demo.main", "demo.f"] from congrArg Prod.fst hpair]
        decide
      obtain ⟨⟨s⟩, hall⟩ := temporaries_keep_their_values hbuild
      obtain ⟨⟨m⟩, hkeep⟩ := hall s "demo.main" horder
      have hcode : (c.program.find? "demo.main").map (fun F => codeOf F.body) = some _ :=
        congrArg Prod.snd hpair
      rw [m.final_eq] at hcode
      have hcode : codeOf m.final.body = _ := Option.some.inj hcode
      have hat : ∀ (n : Nat) instr, (codeOf m.final.body)[n]? = some instr →
          ∃ op, m.final.body[n]? = some op ∧ op.instruction = instr :=
        fun n instr h => Flat.exists_of_codeOf_getElem? h
      rw [hcode] at hat
      obtain ⟨sum, hsum, hadd⟩ := hat 3 _ rfl
      obtain ⟨call, hcall, hinstr⟩ := hat 6 _ rfl
      obtain ⟨product, hproduct, hmul⟩ := hat 7 _ rfl
      have hclaims : m.framing.visit.Claims 3 .word := by
        obtain ⟨op, _, _, _, hop, hsame, _⟩ := m.visited hsum
        refine ⟨op, hop, fun pools => ?_⟩
        rw [← hsame, hadd]
        rfl
      obtain ⟨address, haddress, _, hbetween, _⟩ :=
        hkeep m 3 7 .word sum product hclaims hsum hproduct (by rw [hmul]; decide)
      obtain ⟨⟨t, ht, hname⟩, hcallee⟩ :=
        (hbetween 6 call (by decide) (by decide) hcall).2 _ _ hinstr
      obtain ⟨G, hG, hholds⟩ := hcallee t ht hname "demo.f" ⟨t, .refl, hname⟩
      exact ⟨c, rfl, m.final, G, sum, address, m.final_eq, hG, hsum, hadd, haddress, hholds⟩

end Stackless
