import Stackless.Proofs.MarkerNames
import Stackless.Proofs.PortReads
import Stackless.Proofs.Temporaries

/-!
# Where the ops of a function come from

Every function that is reached was flattened from a function of the model, simplified,
and given storage.  `Lineage` names the first of these stages; from the pieces of the
flat body follows what is known of the later bodies.

* `Lineage.unbroken` — a live op that uses a value, a return apart, has all of its piece
  before it: dead code starts between pieces, and ends with a marker or a return;
* `Lineage.linear` — operands stand before their users, and no value is used twice;
* `Lineage.entry`, `Lineage.pointed`, `Lineage.distinct` — the entry is never taken out,
  every jump has its marker, and no two markers have one name;
* `Member.final_of_simple` — of a simplified body nothing is taken out but assignments
  of ports and their variables.
-/

namespace Stackless

open Flat (Op Instruction Offset File Width Function codeOf Shaped Trims Drawn KeptBySteps)

namespace Flat

/-- Where values are computed up to a live op, they are all there: none was taken out
before an op that is neither a marker nor a return. -/
def Unbroken (code : List Instruction) (body : List Op) : Prop :=
  ∀ (a j : Nat) (op : Op),
    (∀ k, a ≤ k → k < j → ∃ x, code[k]? = some x ∧ x.isInner = true) → body[j]? = some op →
    op.instruction ≠ .removed → op.instruction.isMarker = false → op.instruction.isReturn = false →
    ∀ k, a ≤ k → k < j → ∃ op', body[k]? = some op' ∧ code[k]? = some op'.instruction

/-- What is computed is no link, and goes nowhere. -/
theorem isLink_of_isInner {instruction : Instruction} (h : instruction.isInner = true) :
    instruction.isLink = false := by
  cases instruction with
  | marker | jump => cases h
  | _ => rfl

/-- A step that only takes out links, and sends jumps elsewhere, breaks no piece of live code. -/
theorem Unbroken.trims {code : List Instruction} {body out : List Op} (h : Unbroken code body)
    (htrims : Trims Instruction.isLink body out) : Unbroken code out := by
  intro a j op' hinner hop' hlive hmarker hreturn k hak hkj
  obtain ⟨op, hop, htrim⟩ := htrims.exists_old hop'
  obtain ⟨target, rfl⟩ := htrim.eq_redirect hlive
  have hlive' : op.instruction ≠ .removed := by
    intro heq
    apply hlive
    rw [Op.redirect, heq]
    rfl
  have hmarker' : op.instruction.isMarker = false := by
    cases hinstr : op.instruction with
    | marker name =>
        rw [Op.redirect, hinstr] at hmarker
        cases hmarker
    | _ => rfl
  have hreturn' : op.instruction.isReturn = false := by
    rw [← isReturn_retarget op.instruction target]
    exact hreturn
  obtain ⟨mid, hmid, hcode⟩ := h a j op hinner hop hlive' hmarker' hreturn' k hak hkj
  obtain ⟨x, hx, hxinner⟩ := hinner k hak hkj
  rw [hcode] at hx
  cases hx
  obtain ⟨mid', hmid', htrim'⟩ := htrims.exists_new hmid
  refine ⟨mid', hmid', ?_⟩
  rw [htrim'.instruction_eq (target?_of_isInner hxinner) (isLink_of_isInner hxinner)]
  exact hcode

/-- **Values are alive up to a user that is alive**: were one of them dead, all up to the user
would be. -/
theorem alive_of_isInner {stops : Instruction → Bool} {body : List Op} {k : Nat} :
    ∀ {n : Nat}, deadBefore stops false body (k + n) = false →
      (∀ i, k ≤ i → i < k + n → ∃ op, body[i]? = some op ∧ op.instruction.isInner = true) →
      deadBefore stops false body k = false
  | 0, halive, _ => halive
  | n + 1, halive, hinner => by
    refine alive_of_isInner (n := n) ?_ fun i hlow hhigh => hinner i hlow (by omega)
    obtain ⟨op, hop, hvalue⟩ := hinner (k + n) (by omega) (by omega)
    rw [← Nat.add_assoc, deadBefore_succ stops false hop] at halive
    cases hdead : deadBefore stops false body (k + n) with
    | false => rfl
    | true =>
        rw [hdead] at halive
        cases hinstr : op.instruction with
        | ret | marker | removed =>
            rw [hinstr] at hvalue
            cases hvalue
        | _ => simp [hinstr, deadAfter, Instruction.isRemoved, Instruction.isMarker,
            Instruction.isReturn] at halive

/-- Taking out dead code breaks no piece of live code. -/
theorem Unbroken.strip {code : List Instruction} {body : List Op} (h : Unbroken code body)
    (stops : Instruction → Bool) : Unbroken code (stripAfter stops false body) := by
  intro a j op' hinner hop' hlive hmarker hreturn k hak hkj
  rw [stripAfter_getElem?] at hop'
  obtain ⟨op, hop, hop'⟩ := Option.map_eq_some_iff.mp hop'
  split at hop'
  · rename_i hsurvives
    subst hop'
    have hat := h a j op hinner hop hlive hmarker hreturn
    have halive : deadBefore stops false body j = false := by
      have hremoved : op.instruction.isRemoved = false := by
        cases hinstr : op.instruction with
        | removed => exact absurd hinstr hlive
        | _ => rfl
      simpa [survives, hremoved, hmarker, hreturn] using hsurvives
    obtain ⟨n, rfl⟩ := Nat.exists_eq_add_of_le (Nat.le_of_lt hkj)
    have hdead : deadBefore stops false body k = false := by
      refine alive_of_isInner halive fun i hlow hhigh => ?_
      obtain ⟨mid, hmid, hcode⟩ := hat i (by omega) hhigh
      obtain ⟨x, hx, hvalue⟩ := hinner i (by omega) hhigh
      rw [hcode] at hx
      exact ⟨mid, hmid, Option.some.inj hx ▸ hvalue⟩
    obtain ⟨mid, hmid, hcode⟩ := hat k hak hkj
    refine ⟨mid, ?_, hcode⟩
    rw [stripAfter_getElem?, hmid, hdead]
    rfl
  · subst hop'
    exact absurd rfl hlive

/-- **Simplification breaks no piece of live code.** -/
theorem keptBySteps_unbroken (code : List Instruction) : KeptBySteps (Unbroken code) := by
  constructor
  · exact fun _ _ hbody htrims => hbody.trims htrims
  · exact fun stops _ _ hbody => hbody.strip stops

/-- The entry marker of a body. -/
def Enters (label : String) (body : List Op) : Prop :=
  ∃ op, body[0]? = some op ∧ op.instruction = .marker label

/-- An op that goes nowhere and is no jump stays where jumps are threaded or taken out. -/
theorem Enters.modify {label : String} {body : List Op} {index : Nat} {change : Op → Op}
    (h : Enters label body) (hchange : ∀ op, op.instruction = .marker label → change op = op) :
    Enters label (body.modify index change) := by
  obtain ⟨op, hop, hmarker⟩ := h
  refine ⟨op, ?_, hmarker⟩
  rw [getElem?_modify_eq, hop]
  split
  · rw [Option.map_some, hchange op hmarker]
  · rfl

/-- **A round keeps the entry.** -/
theorem Enters.round {label : String} {body out : List Op} (h : Enters label body)
    (hround : Flat.round label body = .ok out) : Enters label out := by
  obtain ⟨resolved, hresolve, rfl⟩ := round_eq_ok hround
  have hresolved : Enters label resolved := by
    obtain ⟨op, hop, hmarker⟩ := h
    have hmerged : (pastEntry (mergeMarkers none 1) body)[0]? = some op :=
      ((pastEntry_getElem? _ body).1).trans hop
    rcases (pointAll_getElem? hresolve).2 0 op hmerged with ⟨_, hout⟩ | ⟨target, _, htarget, _⟩
    · exact ⟨op, hout, hmarker⟩
    · rw [hmarker] at htarget
      cases htarget
  have hstrip : ∀ stops body, Enters label body → Enters label (stripAfter stops false body) := by
    rintro stops body ⟨op, hop, hmarker⟩
    refine ⟨op, ?_, hmarker⟩
    rw [stripAfter_getElem?, hop]
    simp [survives, hmarker, Instruction.isMarker]
  have hthread : Enters label (threadAll (stripAfter Instruction.isReturn false resolved)) := by
    refine List.foldlRecOn _ _ (hstrip _ _ hresolved) fun body hbody index _ => ?_
    refine hbody.modify fun op hmarker => ?_
    rw [hmarker]
    rfl
  have hunused : Enters label (removeUnusedMarkers
      (threadAll (stripAfter Instruction.isReturn false resolved))) := by
    obtain ⟨op, hop, hmarker⟩ := hthread
    refine ⟨op, ?_, hmarker⟩
    rw [removeUnusedMarkers_getElem?, hop]
    simp
  refine List.foldlRecOn _ _ (hstrip _ _ hunused) fun body hbody index _ => ?_
  refine hbody.modify fun op hmarker => ?_
  rw [hmarker]

/-- **Simplification leaves every jump with its marker**, if it starts from a body in which
every jump has one and no two markers have one name. -/
theorem settle_pointed {label : String} {fuel : Nat} {body out : List Op} (hpointed : Pointed body)
    (hdistinct : Distinct body) (h : settle label fuel body = .ok out) :
    Pointed out ∧ Distinct out := by
  refine ⟨?_, fun index index' name hmarks hmarks' => ?_⟩
  · have hkept : Pointed out ∧ HeadsApart out := by
      refine settle_induction (P := fun body => Pointed body ∧ HeadsApart body) ?_
        ⟨hpointed, hdistinct.headsApart⟩ h
      rintro body out ⟨hpointed, hapart⟩ hround
      have hruns : ∃ out', Flat.round label body = .ok out' ∧ _ := round_keeps_runs hpointed hapart
      obtain ⟨out', hout', _, hkept⟩ := hruns
      rw [hround] at hout'
      cases hout'
      exact hkept
    exact hkept.1
  · have htrims := settle_trims h
    exact hdistinct index index' name (htrims.marks hmarks) (htrims.marks hmarks')

end Flat

/-- What a simplified function was made from: its origin in the model, its flat body, and the
body after simplification. -/
structure Lineage (model : Model.Program) (label : String) (simple : Function) where
  origin : Model.Function
  flat : List Op
  settled : List Op
  mem : ∃ module ∈ model.modules.values, origin ∈ module.functions.values
  label_eq : origin.label = label
  flat_eq : Flat.flatBody ⟨model, origin⟩ = .ok flat
  settle_eq : Flat.settle label (Flat.roundLimit (Flat.withLastUses flat))
    (Flat.withLastUses flat) = .ok settled
  simple_eq : simple =
    { label := label, isr := origin.isr, returns := origin.returns
      body := Flat.withLastUses settled }

/-- Every function of a simplified program has its lineage. -/
theorem exists_lineage {model : Model.Program} {flat simple : Flat.Program}
    (hflat : Flat.Program.ofModel model = .ok flat) (hsimple : flat.simplify = .ok simple)
    {label : String} {f : Function} (hf : simple.find? label = some f) :
    Nonempty (Lineage model label f) := by
  obtain ⟨f0, hf0, hsimp⟩ := Table.find?_mapM_rev hsimple hf
  obtain ⟨module, hmodule, origin, horigin, hlabel, hof⟩ := Flat.exists_of_find?_ofModel hflat hf0
  obtain ⟨flat, hflat, hf0⟩ := bind_eq_ok.mp hof
  cases hf0
  obtain ⟨settled, hsettle, _, hsimple⟩ := Flat.simplify_eq_ok hsimp
  subst hlabel
  exact ⟨⟨origin, flat, settled, ⟨module, hmodule, horigin⟩, rfl, hflat, hsettle, hsimple⟩⟩

namespace Lineage

variable {model : Model.Program} {label : String} {simple : Function} (l : Lineage model label simple)

include l

/-- The instructions before simplification. -/
def code : List Instruction :=
  codeOf l.flat

theorem body_eq : simple.body = Flat.withLastUses l.settled :=
  congrArg Function.body l.simple_eq

theorem trims : Trims (fun _ => true) (Flat.withLastUses l.flat) l.settled :=
  Flat.settle_trims l.settle_eq

/-- No op of the simplified body has an offset. -/
theorem unresolved : ∀ op ∈ simple.body, op.offset = .unresolved := by
  rw [l.body_eq]
  exact Flat.unresolved_of_settle l.flat_eq l.settle_eq

theorem pieces : Flat.Pieces ⟨model, l.origin⟩ l.origin.statements 0 l.code :=
  Flat.pieces_of_flatBody l.flat_eq

/-- The flat body has the shape of flat code. -/
theorem shaped : Shaped 0 l.code :=
  l.pieces.nodup_named.1

/-- The simplified body is as long as the flat one. -/
theorem length_eq : simple.body.length = l.code.length := by
  have htrims := l.trims.length_eq
  rw [Flat.withLastUses, List.length_mapIdx] at htrims
  rw [l.body_eq, code, Flat.length_codeOf, Flat.withLastUses, List.length_mapIdx, htrims]

/-- The simplified body is drawn from the flat one. -/
theorem drawn : Drawn l.code simple.body := by
  have hcode : codeOf (Flat.withLastUses l.flat) = l.code := Flat.codeOf_withLastUses l.flat
  rw [l.body_eq]
  refine (((hcode ▸ Drawn.refl (Flat.withLastUses l.flat)).trims l.trims)).of_kept ?_
  intro i op' hop'
  obtain ⟨op, hop, rfl⟩ := Flat.exists_of_withLastUses hop'
  exact ⟨op, hop, .inl rfl⟩

/-- An op of the simplified body has the operands of an op of the flat one. -/
theorem operands {i r : Nat} {x : Instruction} (hx : (codeOf simple.body)[i]? = some x)
    (hr : r ∈ x.operands) : ∃ y, l.code[i]? = some y ∧ r ∈ y.operands := by
  obtain ⟨op, hop, rfl⟩ := Flat.exists_of_codeOf_getElem? hx
  exact l.drawn.operand hop hr

/-- **Operands stand before their users, and no value is used twice.**  Flattening makes every value
for one user, and simplification neither moves an op nor changes its operands. -/
theorem linear : Storage.Linear simple.body := by
  refine ⟨fun i x hx r hr => ?_, fun i j x y r hx hy hrx hry => ?_, fun x hx => ?_⟩
  · obtain ⟨y, hy, hry⟩ := l.operands hx hr
    have := l.shaped.operand i y hy r hry
    omega
  · obtain ⟨x', hx', hrx'⟩ := l.operands hx hrx
    obtain ⟨y', hy', hry'⟩ := l.operands hy hry
    exact Flat.eq_of_mem_operands l.pieces.nodup_named.2 hx' hy' hrx' hry'
  · obtain ⟨op, hop, rfl⟩ := List.mem_map.mp hx
    obtain ⟨i, hi⟩ := List.mem_iff_getElem?.mp hop
    have hnodup := (List.nodup_flatMap.mp l.pieces.nodup_named.2).1
    rcases l.drawn i op hi with hremoved | ⟨instr, target, hinstr, heq⟩
    · rw [hremoved]
      exact List.nodup_nil
    · have hsame : op.instruction.operands = instr.operands := by
        rw [heq]
        cases instr <;> rfl
      rw [hsame]
      exact hnodup instr (List.mem_of_getElem? hinstr)

theorem closed : Flat.Closed simple.body := by
  intro op hop r hr
  obtain ⟨i, hi⟩ := List.mem_iff_getElem?.mp hop
  have hlt := l.linear.lt i _ (Flat.codeOf_getElem? hi) r hr
  exact Nat.lt_trans hlt (List.getElem?_eq_some_iff.mp hi).1

/-- **A live user has all of its piece before it.**  Values are taken out only behind jumps and
returns, together with all that follows up to the next marker; a return may be left behind alone. -/
theorem unbroken : Flat.Unbroken l.code simple.body := by
  have hcode : codeOf (Flat.withLastUses l.flat) = l.code := Flat.codeOf_withLastUses l.flat
  have hstart : Flat.Unbroken l.code (Flat.withLastUses l.flat) := by
    intro a j op hinner _ _ _ _ k hak hkj
    obtain ⟨x, hx, _⟩ := hinner k hak hkj
    rw [← hcode] at hx ⊢
    obtain ⟨op', hop', rfl⟩ := Flat.exists_of_codeOf_getElem? hx
    exact ⟨op', hop', hx⟩
  have hsettled := (Flat.keptBySteps_unbroken l.code).settle hstart l.settle_eq
  rw [l.body_eq]
  intro a j op' hinner hop' hlive hmarker hreturn k hak hkj
  obtain ⟨op, hop, rfl⟩ := Flat.exists_of_withLastUses hop'
  obtain ⟨mid, hmid, hsame⟩ := hsettled a j op hinner hop hlive hmarker hreturn k hak hkj
  refine ⟨{ mid with lastUse := Flat.lastUseIn l.settled k mid }, ?_, hsame⟩
  rw [Flat.withLastUses_getElem?, hmid]
  rfl

/-- The body of the simplified function starts with the entry. -/
theorem entry : Flat.Enters label simple.body := by
  have hflat : Flat.Enters label (Flat.withLastUses l.flat) := by
    obtain ⟨ops, markers, _, hbody⟩ := Flat.flatBody_eq_ok l.flat_eq
    have hzero : l.flat[0]? = some (Op.fresh none (.marker l.origin.label)) := by
      rw [hbody]
      rfl
    rw [Flat.Enters, Flat.withLastUses_getElem?, hzero]
    exact ⟨_, rfl, congrArg Instruction.marker l.label_eq⟩
  have hsettled : Flat.Enters label l.settled :=
    Flat.settle_induction (fun _ _ hbody hround => hbody.round hround) hflat l.settle_eq
  obtain ⟨op, hop, hmarker⟩ := hsettled
  refine ⟨{ op with lastUse := Flat.lastUseIn l.settled 0 op }, ?_, hmarker⟩
  rw [l.body_eq, Flat.withLastUses_getElem?, hop]
  rfl

/-- **Every jump has its marker, and no two markers have one name**, after simplification as before.
So a marker that is written in a section is the only one of its name. -/
theorem pointed : Flat.Pointed simple.body ∧ Flat.Distinct simple.body := by
  have hcode := Flat.codeOf_withLastUses l.flat
  have hcode' := Flat.codeOf_withLastUses l.settled
  obtain ⟨hpointed, hdistinct⟩ := Flat.settle_pointed
    ((Flat.pointed_of_flatBody l.flat_eq).of_codeOf_eq hcode)
    ((Flat.distinct_of_flatBody l.flat_eq).of_codeOf_eq hcode) l.settle_eq
  rw [l.body_eq]
  exact ⟨hpointed.of_codeOf_eq hcode', hdistinct.of_codeOf_eq hcode'⟩

/-- **Every jump knows where it goes.** -/
theorem target_index {i : Nat} {x : Instruction} {target : Flat.Target}
    (hx : (codeOf simple.body)[i]? = some x) (htarget : x.target? = some target) :
    ∃ index, target.index = some index := by
  rw [l.body_eq, Flat.codeOf_withLastUses] at hx
  obtain ⟨op, hop, rfl⟩ := Flat.exists_of_codeOf_getElem? hx
  obtain ⟨index, hindex, _⟩ :=
    Flat.settle_resolved l.settle_eq target ⟨op, List.mem_of_getElem? hop, htarget⟩
  exact ⟨index, hindex⟩

/-- The markers behind the entry are numbered. -/
theorem marker_name {i : Nat} {name : String} (h : Flat.Marks simple.body i name) :
    ∃ n, name = Flat.markerName label n := by
  obtain ⟨ops, markers, hflattens, hbody⟩ := Flat.flatBody_eq_ok l.flat_eq
  obtain ⟨hpos, op', hop', hinstr⟩ := h
  have hcode := l.drawn.plain hop' (by rw [hinstr]; nofun) (by rw [hinstr]; rfl)
  have hmarks : Flat.Marks l.flat i name := by
    rw [hinstr] at hcode
    exact Flat.marks_iff.mpr ⟨hpos, hcode⟩
  rw [hbody] at hmarks
  obtain ⟨k, _, hk⟩ := Flat.marks_framed_iff.mp hmarks
  obtain ⟨n, _, hname⟩ := hflattens.numbered.2.named k name hk
  exact ⟨n, l.label_eq ▸ hname⟩

end Lineage

namespace Stages.Member

variable {model : Model.Program} {c : Compilation} {s : Stages model c} {label : String}

/-- What a function that is reached was made from: its origin in the model, and the bodies it had
before and after simplification. -/
abbrev Lineage (m : s.Member label) :=
  Stackless.Lineage model label m.simple

theorem exists_lineage (m : s.Member label) : Nonempty m.Lineage :=
  Stackless.exists_lineage s.flat_eq s.simple_eq m.simple_eq

/-- What reading ports straight into variables left of the simplified body. -/
theorem Lineage.portsPassed {m : s.Member label} (l : m.Lineage) : Storage.PortsPassed m.framing.visit.scope m.simple.body
    m.simple.body.length m.framing.visit.body m.framing.visit.passed :=
  Storage.portsPassed_of_passPorts l.linear m.framing.pass_eq

/-- Every op that is visited has its op in the end. -/
theorem final_of_visited (m : s.Member label) {i : Nat} {op : Op}
    (h : m.framing.visit.body[i]? = some op) : ∃ op', m.final.body[i]? = some op' := by
  have hops := Storage.Visit.ops_getElem? m.framing.ops_eq i
  rw [Nat.zero_add] at hops
  obtain ⟨offset, pools, next, _, hmid⟩ := hops.2 op h
  obtain ⟨body, locals, hbody, _, hfinal⟩ := Storage.anchor_eq_ok m.anchor_eq
  have hlen := (mapM_eq_ok.mp hbody).1
  rw [m.raised_body] at hlen
  have hlt := (List.getElem?_eq_some_iff.mp hmid).1
  have hbody' : m.final.body = body := by rw [hfinal]
  rw [hbody']
  exact ⟨_, List.getElem?_eq_getElem (hlen ▸ hlt)⟩

/-- The visit and the anchoring change no instruction. -/
theorem codeOf_final (m : s.Member label) : codeOf m.final.body = codeOf m.framing.visit.body := by
  apply List.ext_getElem?
  intro i
  have hat : ∀ body : List Op, (codeOf body)[i]? = body[i]?.map (·.instruction) :=
    fun _ => List.getElem?_map
  cases hfinal : m.final.body[i]? with
  | some op' =>
      obtain ⟨op, _, _, _, hop, hsame, _⟩ := m.visited hfinal
      rw [hat, hat, hfinal, hop, Option.map_some, Option.map_some, hsame]
  | none =>
      cases hop : m.framing.visit.body[i]? with
      | none => rw [hat, hat, hfinal, hop]
      | some op =>
          obtain ⟨op', hop'⟩ := m.final_of_visited hop
          rw [hfinal] at hop'
          cases hop'

/-- **What is left in the end.**  Of a simplified body nothing is taken out but
assignments, and the variables that ports are read into. -/
theorem final_of_kept (m : s.Member label) {i : Nat} {x : Instruction}
    (hx : (codeOf m.simple.body)[i]? = some x) (hassign : x.isAssign = false)
    (htarget : ∀ u t v var, Storage.ReadsPort m.simple.body u t v var → i ≠ t) :
    (codeOf m.final.body)[i]? = some x := by
  obtain ⟨l⟩ := m.exists_lineage
  have hports := l.portsPassed
  have hat : ∀ body : List Op, (codeOf body)[i]? = body[i]?.map (·.instruction) :=
    fun _ => List.getElem?_map
  rw [m.codeOf_final]
  by_cases hother : ∀ u t v var, u < m.simple.body.length →
      Storage.ReadsPort m.simple.body u t v var → i ≠ u ∧ i ≠ t ∧ i ≠ v
  · rw [hat, hports.same i hother, ← hat]
    exact hx
  · push Not at hother
    obtain ⟨u, t, v, var, hu, hreads, himp⟩ := hother
    have hne : i ≠ u := by
      rintro rfl
      rw [hreads.assign] at hx
      cases hx
      cases hassign
    have hv := himp hne (htarget u t v var hreads)
    obtain ⟨_, _, offset, _, hmoved⟩ := hports.gone u t v var hu hreads
    subst hv
    rw [hat, hmoved, Option.map_map]
    rw [hat] at hx
    exact hx

/-- What is neither an assignment nor a variable is left. -/
theorem final_of_simple (m : s.Member label) {i : Nat} {x : Instruction}
    (hx : (codeOf m.simple.body)[i]? = some x) (hassign : x.isAssign = false)
    (hregister : ∀ var, x ≠ .register var) : (codeOf m.final.body)[i]? = some x := by
  refine m.final_of_kept hx hassign ?_
  rintro u t v var hreads rfl
  rw [hreads.target] at hx
  cases hx
  exact hregister var rfl

/-- A live op of the end was there in the simplified body. -/
theorem simple_of_codeOf_final (m : s.Member label) {i : Nat} {x : Instruction}
    (hx : (codeOf m.final.body)[i]? = some x) (hlive : x ≠ .removed) :
    (codeOf m.simple.body)[i]? = some x := by
  obtain ⟨op', hop', rfl⟩ := Flat.exists_of_codeOf_getElem? hx
  obtain ⟨op, hop, hsame⟩ := m.simple_of_final hop' hlive
  rw [Flat.codeOf_getElem? hop, hsame]

/-- The assignments of ports to variables are gone in the end. -/
theorem removed_of_readsPort (m : s.Member label) {u t v : Nat} {var : Flat.Var}
    (h : Storage.ReadsPort m.simple.body u t v var) : (codeOf m.final.body)[u]? = some .removed := by
  obtain ⟨l⟩ := m.exists_lineage
  have hlt := (List.getElem?_eq_some_iff.mp h.assign).1
  rw [Flat.length_codeOf] at hlt
  have hgone := (l.portsPassed.gone u t v var hlt h).1
  rw [List.getElem?_eq_getElem hlt, Option.map_some] at hgone
  rw [m.codeOf_final, Flat.codeOf_getElem? hgone]
  rfl

/-- **What a live op uses is left in the end.**  A variable that a port is read into has
only one user, and that is gone. -/
theorem final_of_used (m : s.Member label) {j r : Nat} {x y : Instruction}
    (hy : (codeOf m.final.body)[j]? = some y) (hr : r ∈ y.operands)
    (hx : (codeOf m.simple.body)[r]? = some x) (hassign : x.isAssign = false) :
    (codeOf m.final.body)[r]? = some x := by
  obtain ⟨l⟩ := m.exists_lineage
  refine m.final_of_kept hx hassign ?_
  rintro u t v var hreads rfl
  have hlive : y ≠ .removed := by
    rintro rfl
    cases hr
  have hsame : j = u := l.linear.once j u _ _ r (m.simple_of_codeOf_final hy hlive) hreads.assign hr
    List.mem_cons_self
  rw [hsame, m.removed_of_readsPort hreads] at hy
  exact hlive (Option.some.inj hy).symm

end Stages.Member

end Stackless
