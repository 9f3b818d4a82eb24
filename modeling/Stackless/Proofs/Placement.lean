import Stackless.Proofs.Lineage

/-!
# Where the values of a function are

In the end every op has an offset, and which one is a matter of its instruction alone.

* named storage is where the variable is, `Member.addressOf?`;
* what computes a value has a slot of its own, `Member.Temp`;
* a literal has a slot if something needs it in one, and none otherwise;
* a port that is read straight into a variable is where the variable is;
* a comparison has no slot before its branch, and the slot of the variable before its
  copy.

`Member.placement` says so for all instructions at once, `Member.value_cases` for the values that
have an address, and `Member.lastUse_eq` that a value is used last by its only user.
-/

namespace Stackless

open Flat (Op Instruction Offset File Width Var codeOf)
open Storage (ReadsPort)

/-- A comparison that is copied is copied to a truth variable. -/
theorem Storage.copyTarget?_bit {body : List Op} {index last : Nat} {var : Var}
    (h : Storage.copyTarget? body index last = .ok (some var)) :
    ∃ target, (codeOf body)[last]? = some (.assign none .bit target index) ∧
      (codeOf body)[target]? = some (.bit var) := by
  obtain ⟨op, target, hop, hassign⟩ := Storage.copyTarget?_eq_some h
  refine ⟨target, by rw [Flat.codeOf_getElem? hop, hassign], ?_⟩
  simp only [Storage.copyTarget?, hop, hassign, if_true] at h
  obtain ⟨place, hplace, h⟩ := bind_eq_ok.mp h
  obtain ⟨op', hop', rfl⟩ := Storage.instructionAt_eq_ok hplace
  rw [Flat.codeOf_getElem? hop']
  split at h
  · rename_i hbit
    cases h
    rw [hbit]
  · cases h

/-- Literals that pass the test are kept. -/
theorem Storage.mem_keep {body : List Op} {test : Instruction → Bool} {r : Nat} {x : Instruction}
    (hx : (codeOf body)[r]? = some x) (htest : test x = true) :
    ∀ {refs kept : List Nat}, Storage.keep body test refs = .ok kept → r ∈ refs → r ∈ kept
  | [], kept, _, hr => by cases hr
  | first :: rest, kept, h, hr => by
    obtain ⟨instruction, hinstruction, h⟩ := bind_eq_ok.mp h
    obtain ⟨others, hothers, h⟩ := bind_eq_ok.mp h
    cases h
    rcases List.mem_cons.mp hr with rfl | hr
    · obtain ⟨op, hop, rfl⟩ := Storage.instructionAt_eq_ok hinstruction
      rw [Flat.codeOf_getElem? hop] at hx
      rw [Option.some.inj hx, if_pos htest]
      exact List.mem_cons_self
    · have hmem := mem_keep hx htest hothers hr
      split
      · exact List.mem_cons_of_mem _ hmem
      · exact hmem

/-- The operands that an instruction needs in the bit file. -/
def Flat.Instruction.truths : Instruction → List Nat
  | .compare _ .bit lhs rhs => [lhs, rhs]
  | .math _ .bit lhs rhs => lhs :: rhs.toList
  | .branch _ condition _ => [condition]
  | .assign (some _) .bit _ value => [value]
  | _ => []

/-- **Truth literals that are needed in the bit file are given a slot.** -/
theorem Storage.mem_materialized {body : List Op} {literals : List Nat} {j r : Nat}
    {y : Instruction} {value : Bool} (h : Storage.materialized body = .ok literals)
    (hy : (codeOf body)[j]? = some y) (hr : r ∈ y.truths)
    (hx : (codeOf body)[r]? = some (.bool value)) : r ∈ literals := by
  obtain ⟨needed, hneeded, h⟩ := bind_eq_ok.mp h
  cases h
  obtain ⟨op, hop, rfl⟩ := Flat.exists_of_codeOf_getElem? hy
  obtain ⟨hlen, hall⟩ := mapM_eq_ok.mp hneeded
  have hlt : j < needed.length := hlen ▸ (List.getElem?_eq_some_iff.mp hop).1
  have hkept := hall j op _ hop (List.getElem?_eq_getElem hlt)
  refine List.mem_flatten.mpr ⟨_, List.getElem_mem hlt, ?_⟩
  have hkeep : ∀ {refs : List Nat}, r ∈ refs →
      Storage.keep body Storage.isBool refs = .ok needed[j] → r ∈ needed[j] :=
    fun hmem hrefs => Storage.mem_keep hx rfl hrefs hmem
  unfold Flat.Instruction.truths at hr
  unfold Storage.literalsOf at hkept
  split at hr
  · rename_i hinstr
    rw [hinstr] at hkept
    exact hkeep hr hkept
  · rename_i hinstr
    rw [hinstr] at hkept
    exact hkeep hr hkept
  · rename_i hinstr
    rw [hinstr] at hkept
    exact hkeep hr hkept
  · rename_i hinstr
    rw [hinstr] at hkept
    exact hkeep hr hkept
  · cases hr

/-- The last user of a value is a user. -/
theorem Flat.operand_of_lastUser {r : Nat} :
    ∀ {ops : List Op} {start user : Nat}, Flat.lastUser r start ops = some user →
      ∃ op, ops[user - start]? = some op ∧ r ∈ op.instruction.operands
  | [], _, _, h => by cases h
  | first :: rest, start, user, h => by
    rw [Flat.lastUser] at h
    split at h
    · rename_i user' hlast
      cases h
      obtain ⟨op, hop, hr⟩ := operand_of_lastUser hlast
      have hbounds := Storage.lastUser_bounds hlast
      refine ⟨op, ?_, hr⟩
      rw [show user - start = user - (start + 1) + 1 by omega]
      exact hop
    · split at h
      · rename_i hr
        cases h
        rw [Nat.sub_self]
        exact ⟨first, rfl, hr⟩
      · cases h

namespace Stages.Member

variable {model : Model.Program} {c : Compilation} {s : Stages model c} {label : String}

/-- The address of a variable: that of its slot, for a local one, and what the layout says of its
label otherwise. -/
def addressOf? (m : s.Member label) : Var → Option Nat
  | .localVar name => (m.final.locals.find? name).bind Offset.absolute?
  | .globalVar label => c.layout.addresses.find? label

/-- The op at an index claimed a slot, and this is where it is: behind the pinned slots, and inside
the window of its function. -/
def Temp (m : s.Member label) (i : Nat) (width : Width) (offset : Offset) : Prop :=
  m.framing.visit.Claims i width ∧ ∃ slot, m.pins width.file ≤ slot ∧
    slot < (m.final.window width.file).count ∧ offset = .absolute (m.address width.file slot)

/-- The offset that a literal has. -/
def Literal (m : s.Member label) (i : Nat) (width : Width) (offset : Offset) : Prop :=
  if i ∈ m.framing.visit.literals then m.Temp i width offset else offset = .unresolved

/-- The last use of the op at an index. -/
def lastUse (m : s.Member label) (i : Nat) : Nat :=
  ((m.framing.visit.body[i]?).bind (·.lastUse)).getD i

/-- The offset that a comparison has. -/
def Comparison (m : s.Member label) (i : Nat) (offset : Offset) : Prop :=
  if Storage.feedsBranch m.framing.visit.body i (m.lastUse i) then offset = .unresolved
  else
    (Storage.copyTarget? m.framing.visit.body i (m.lastUse i) = .ok none ∧ m.Temp i .bit offset) ∨
    ∃ var address, Storage.copyTarget? m.framing.visit.body i (m.lastUse i) = .ok (some var) ∧
      m.addressOf? var = some address ∧ offset = .absolute address

/-- Where the value of an instruction is. -/
def Placement (m : s.Member label) (i : Nat) : Instruction → Offset → Prop
  | .register var, offset | .bit var, offset =>
    ∃ address, m.addressOf? var = some address ∧ offset = .absolute address
  | .ram var, offset | .rom var, offset | .portOut var, offset =>
    ∃ name address, var = .globalVar name ∧ c.layout.addresses.find? name = some address ∧
      offset = .absolute address
  | .portIn port, offset =>
    (m.Temp i .word offset ∧ ∃ name address, port = .globalVar name ∧
      c.layout.addresses.find? name = some address) ∨
    ∃ u t var address, ReadsPort m.simple.body u t i var ∧ m.addressOf? var = some address ∧
      offset = .absolute address
  | .int _, offset => m.Literal i .word offset
  | .bool _, offset => m.Literal i .bit offset
  | .compare _ _ _ _, offset => m.Comparison i offset
  | .math _ width _ _, offset | .call _ (some width), offset => m.Temp i width offset
  | .element _ _ _, offset | .address _ _, offset => m.Temp i .word offset
  | _, offset => offset = .unresolved

/-- The addresses of the layout are those that the visit knew. -/
theorem scope_globals (m : s.Member label) :
    m.framing.visit.scope.globals = c.layout.addresses := by
  rw [m.framing.scope_eq]
  exact (congrArg Storage.Layout.addresses s.storage.layout_eq).symm

/-- The locals that the visit knew have addresses in the end. -/
theorem locals_final (m : s.Member label) {name : String} {offset : Offset}
    (h : m.framing.visit.scope.locals.find? name = some offset) :
    ∃ offset', m.final.locals.find? name = some offset' ∧
      Storage.anchorOffset m.raised.registers m.raised.bits offset = .ok offset' := by
  obtain ⟨_, locals, _, hlocals, hfinal⟩ := Storage.anchor_eq_ok m.anchor_eq
  rw [m.raised_locals] at hlocals
  obtain ⟨offset', hoffset', hfind⟩ := Table.find?_mapM hlocals h
  refine ⟨offset', ?_, hoffset'⟩
  rw [hfinal]
  exact hfind

/-- **Variables.**  The offset of a variable becomes its address. -/
theorem addressOf?_of_scope (m : s.Member label) {var : Var} {offset offset' : Offset}
    (hfind : m.framing.visit.scope.find? var = some offset)
    (hanchor : Storage.anchorOffset m.raised.registers m.raised.bits offset = .ok offset') :
    ∃ address, m.addressOf? var = some address ∧ offset' = .absolute address := by
  cases var with
  | localVar name =>
      obtain ⟨offset'', hfinal, hanchor'⟩ := m.locals_final hfind
      rw [hanchor] at hanchor'
      cases hanchor'
      obtain ⟨file, slot, rfl, _⟩ := m.pinned.slots name offset hfind
      obtain ⟨_, rfl⟩ := Storage.anchorOffset_relative hanchor
      refine ⟨_, ?_, rfl⟩
      rw [addressOf?, hfinal]
      rfl
  | globalVar name =>
      obtain ⟨address, haddress, rfl⟩ := Option.map_eq_some_iff.mp hfind
      cases hanchor
      rw [m.scope_globals] at haddress
      exact ⟨address, haddress, rfl⟩

/-- Before the visit only ports that are read straight into a variable have an offset,
that of the variable. -/
theorem visit_offset (m : s.Member label) {i : Nat} {op : Op}
    (h : m.framing.visit.body[i]? = some op) :
    op.offset = .unresolved ∨ ∃ u t var port, ReadsPort m.simple.body u t i var ∧
      m.framing.visit.scope.find? var = some op.offset ∧ op.instruction = .portIn port := by
  obtain ⟨l⟩ := m.exists_lineage
  obtain ⟨_, _, _, _, _, _, hnone⟩ := m.exists_code
  have hold : ∀ {old : Op}, m.simple.body[i]? = some old → old.offset = .unresolved :=
    fun hold => hnone _ (List.mem_of_getElem? hold)
  by_cases hother : ∀ u t v var, u < m.simple.body.length →
      ReadsPort m.simple.body u t v var → i ≠ u ∧ i ≠ t ∧ i ≠ v
  · rw [l.portsPassed.same i hother] at h
    exact .inl (hold h)
  · push Not at hother
    obtain ⟨u, t, v, var, hu, hreads, himp⟩ := hother
    obtain ⟨hgone, hgone', offset, hoffset, hmoved⟩ := l.portsPassed.gone u t v var hu hreads
    have hremoved : ∀ k, m.framing.visit.body[k]? = m.simple.body[k]?.map Op.remove → i = k →
        op.offset = .unresolved := by
      rintro k hk rfl
      rw [h] at hk
      obtain ⟨old, hfind, heq⟩ := Option.map_eq_some_iff.mp hk.symm
      rw [← heq]
      show old.offset = .unresolved
      exact hold hfind
    by_cases hiu : i = u
    · exact .inl (hremoved u hgone hiu)
    · by_cases hit : i = t
      · exact .inl (hremoved t hgone' hit)
      · obtain rfl := himp hiu hit
        rw [h] at hmoved
        obtain ⟨old, hold', heq⟩ := Option.map_eq_some_iff.mp hmoved.symm
        obtain ⟨port, hport⟩ := hreads.value
        rw [Flat.codeOf_getElem? hold'] at hport
        subst heq
        exact .inr ⟨u, t, var, port, hreads, hoffset, Option.some.inj hport⟩

/-- Ports that the visit passes over are read straight into a variable. -/
theorem mem_passed (m : s.Member label) {i : Nat} :
    i ∈ m.framing.visit.passed ↔ ∃ u t var, ReadsPort m.simple.body u t i var := by
  obtain ⟨l⟩ := m.exists_lineage
  rw [l.portsPassed.passed_iff]
  constructor
  · rintro ⟨u, t, var, _, hreads⟩
    exact ⟨u, t, var, hreads⟩
  · rintro ⟨u, t, var, hreads⟩
    have hlt := (List.getElem?_eq_some_iff.mp hreads.assign).1
    rw [codeOf, List.length_map] at hlt
    exact ⟨u, t, var, hlt, hreads⟩

/-- A port that is passed over has the offset of its variable. -/
theorem passed_offset (m : s.Member label) {i : Nat} {op : Op} (h : i ∈ m.framing.visit.passed)
    (hop : m.framing.visit.body[i]? = some op) : ∃ u t var, ReadsPort m.simple.body u t i var ∧
      m.framing.visit.scope.find? var = some op.offset := by
  obtain ⟨l⟩ := m.exists_lineage
  obtain ⟨u, t, var, hu, hreads⟩ := (l.portsPassed.passed_iff i).mp h
  obtain ⟨_, _, offset, hoffset, hmoved⟩ := l.portsPassed.gone u t i var hu hreads
  rw [hop] at hmoved
  obtain ⟨old, _, heq⟩ := Option.map_eq_some_iff.mp hmoved.symm
  subst heq
  exact ⟨u, t, var, hreads, hoffset⟩

theorem temp_of_claims (m : s.Member label) {i : Nat} {width : Width} {op op' : Op}
    (hop : m.framing.visit.body[i]? = some op) (hop' : m.final.body[i]? = some op')
    (hclaims : m.framing.visit.ClaimsAt i op width) : m.Temp i width op'.offset := by
  obtain ⟨slot, hpins, hlt, haddress, _⟩ := m.claimed hop hclaims
  exact ⟨⟨op, hop, hclaims⟩, slot, hpins, hlt, haddress op' hop'⟩

/-- An op that is no port and gets no offset has none in the end. -/
theorem unresolved_final (m : s.Member label) {i : Nat} {op : Op} {offset' : Offset}
    (hop : m.framing.visit.body[i]? = some op) (hport : op.instruction.isStorage = false)
    (hanchor : Storage.anchorOffset m.raised.registers m.raised.bits op.offset = .ok offset') :
    offset' = .unresolved := by
  rcases m.visit_offset hop with h | ⟨u, t, var, port, _, _, h⟩
  · rw [h] at hanchor
    exact (Except.ok.inj hanchor).symm
  · rw [h] at hport
    cases hport

/-- A literal has a slot if it is among those that need one. -/
theorem literal_final (m : s.Member label) {i : Nat} {width : Width} {op op' : Op}
    {offset : Option Offset} {pools next : Storage.Pools}
    (hop : m.framing.visit.body[i]? = some op) (hop' : m.final.body[i]? = some op')
    (hport : op.instruction.isStorage = false)
    (hvisit : ∀ pools last, m.framing.visit.offset pools i last op.instruction =
      .ok (if m.framing.visit.literals.contains i then Storage.Visit.claimed pools width i last
        else (none, pools)))
    (hoffset : m.framing.visit.offset pools i (op.lastUse.getD i) op.instruction =
      .ok (offset, next))
    (hanchor : Storage.anchorOffset m.raised.registers m.raised.bits (offset.getD op.offset) =
      .ok op'.offset) : m.Literal i width op'.offset := by
  unfold Literal
  by_cases hmem : i ∈ m.framing.visit.literals
  · rw [if_pos hmem]
    refine m.temp_of_claims hop hop' fun pools' => ?_
    rw [hvisit, if_pos (List.contains_iff_mem.mpr hmem)]
  · rw [if_neg hmem]
    rw [hvisit, if_neg (mt List.contains_iff_mem.mp hmem)] at hoffset
    cases hoffset
    exact m.unresolved_final hop hport hanchor

/-- A comparison has no slot before its branch, and the slot of a variable before its
copy. -/
theorem comparison_final (m : s.Member label) {i : Nat} {op op' : Op} {offset : Option Offset}
    {pools next : Storage.Pools} {test : Model.CompareOp} {width : Width} {lhs rhs : Nat}
    (hop : m.framing.visit.body[i]? = some op) (hop' : m.final.body[i]? = some op')
    (hinstr : op.instruction = .compare test width lhs rhs)
    (hoffset : m.framing.visit.offset pools i (op.lastUse.getD i) op.instruction =
      .ok (offset, next))
    (hanchor : Storage.anchorOffset m.raised.registers m.raised.bits (offset.getD op.offset) =
      .ok op'.offset) : m.Comparison i op'.offset := by
  have hlast : m.lastUse i = op.lastUse.getD i := by
    rw [lastUse, hop, Option.bind_some]
  unfold Comparison
  rw [hlast]
  rw [hinstr] at hoffset
  by_cases hfeeds : Storage.feedsBranch m.framing.visit.body i (op.lastUse.getD i) = true
  · rw [if_pos hfeeds]
    simp only [Storage.Visit.offset, Storage.Visit.comparison, hfeeds, if_true] at hoffset
    cases hoffset
    exact m.unresolved_final hop (by rw [hinstr]; rfl) hanchor
  · rw [if_neg hfeeds]
    simp only [Storage.Visit.offset, Storage.Visit.comparison, hfeeds] at hoffset
    obtain ⟨target, htarget, hoffset⟩ := bind_eq_ok.mp hoffset
    cases target with
    | none =>
        refine .inl ⟨htarget, m.temp_of_claims hop hop' fun pools' => ?_⟩
        simp only [hinstr, Storage.Visit.offset, Storage.Visit.comparison, hfeeds]
        exact bind_eq_ok.mpr ⟨_, htarget, rfl⟩
    | some var =>
        obtain ⟨place, hplace, heq⟩ := bind_eq_ok.mp hoffset
        cases heq
        obtain ⟨address, haddress, hfinal⟩ :=
          m.addressOf?_of_scope (Storage.Scope.var_eq_ok.mp hplace) hanchor
        exact .inr ⟨var, address, htarget, haddress, hfinal⟩

/-- **Where the value of every op is in the end.**  There is one case for each kind of instruction,
and whether an op has a cell at all is decided as the visit of the body decides it. -/
theorem placement (m : s.Member label) {i : Nat} {op' : Op} (h : m.final.body[i]? = some op') :
    m.Placement i op'.instruction op'.offset := by
  obtain ⟨op, offset, pools, next, hop, hinstr, hoffset, _, hanchor⟩ := m.visited h
  rw [hinstr]
  obtain ⟨instruction, old, last, position⟩ := op
  cases instruction with
  | register var | bit var =>
      obtain ⟨offset', hvar, heq⟩ := bind_eq_ok.mp hoffset
      cases heq
      exact m.addressOf?_of_scope (Storage.Scope.var_eq_ok.mp hvar) hanchor
  | ram var | rom var | portOut var =>
      obtain ⟨address, hglobal, heq⟩ := bind_eq_ok.mp hoffset
      cases heq
      obtain ⟨name, rfl, hfind⟩ := Storage.Scope.global_eq_ok.mp hglobal
      rw [m.scope_globals] at hfind
      exact ⟨name, address, rfl, hfind, (Except.ok.inj hanchor).symm⟩
  | portIn port =>
      by_cases hpassed : i ∈ m.framing.visit.passed
      · rw [Storage.Visit.offset, if_pos (List.contains_iff_mem.mpr hpassed)] at hoffset
        cases hoffset
        obtain ⟨u, t, var, hreads, hfind⟩ := m.passed_offset hpassed hop
        obtain ⟨address, haddress, hfinal⟩ := m.addressOf?_of_scope hfind hanchor
        exact .inr ⟨u, t, var, address, hreads, haddress, hfinal⟩
      · rw [Storage.Visit.offset, if_neg (mt List.contains_iff_mem.mp hpassed)] at hoffset
        obtain ⟨address, hglobal, heq⟩ := bind_eq_ok.mp hoffset
        obtain ⟨name, rfl, hfind⟩ := Storage.Scope.global_eq_ok.mp hglobal
        rw [m.scope_globals] at hfind
        refine .inl ⟨m.temp_of_claims hop h fun pools' => ?_, name, address, rfl, hfind⟩
        rw [Storage.Visit.offset, if_neg (mt List.contains_iff_mem.mp hpassed), hglobal]
        rfl
  | int value => exact m.literal_final hop h rfl (fun _ _ => rfl) hoffset hanchor
  | bool value => exact m.literal_final hop h rfl (fun _ _ => rfl) hoffset hanchor
  | compare test width lhs rhs =>
      exact m.comparison_final hop h rfl hoffset hanchor
  | math op width lhs rhs => exact m.temp_of_claims hop h fun _ => rfl
  | element space array index => exact m.temp_of_claims hop h fun _ => rfl
  | address array index => exact m.temp_of_claims hop h fun _ => rfl
  | call function result =>
      cases result with
      | none =>
          cases hoffset
          exact m.unresolved_final hop rfl hanchor
      | some width => exact m.temp_of_claims hop h fun _ => rfl
  | jump | branch | assign =>
      obtain ⟨_, _, heq⟩ := bind_eq_ok.mp hoffset
      cases heq
      exact m.unresolved_final hop rfl hanchor
  | _ =>
      cases hoffset
      exact m.unresolved_final hop rfl hanchor

/-- **Where the value of an op is, if it has an address.**  It is in a slot of its own, unless it
goes straight to a variable: a port that is read into a register, or a comparison that is copied
to a bit. -/
theorem value_cases (m : s.Member label) {i : Nat} {op : Op} {file : File} {address : Nat}
    (hop : m.final.body[i]? = some op) (hfile : op.instruction.resultFile? = some file)
    (haddress : op.offset = .absolute address) :
    (∃ width : Width, width.file = file ∧ m.Temp i width (.absolute address)) ∨
      (∃ u t var, ReadsPort m.simple.body u t i var ∧ m.addressOf? var = some address ∧
        file = .register) ∨
      ∃ (u t : Nat) (var : Var), (codeOf m.final.body)[u]? = some (.assign none .bit t i) ∧
        (codeOf m.final.body)[t]? = some (.bit var) ∧
        (∃ test width lhs rhs, op.instruction = .compare test width lhs rhs) ∧
        m.addressOf? var = some address ∧ file = .bit := by
  have hplaced := m.placement hop
  rw [haddress] at hplaced
  obtain ⟨instruction, offset, last, position⟩ := op
  cases instruction with
  | int | bool =>
      cases hfile
      have hliteral : (if i ∈ m.framing.visit.literals then m.Temp i _ (.absolute address)
        else Offset.absolute address = .unresolved) := hplaced
      split at hliteral
      · exact .inl ⟨_, rfl, hliteral⟩
      · cases hliteral
  | portIn port =>
      cases hfile
      rcases hplaced with ⟨htemp, _⟩ | ⟨u, t, var, _, hreads, hvar, heq⟩
      · exact .inl ⟨.word, rfl, htemp⟩
      · cases heq
        exact .inr (.inl ⟨u, t, var, hreads, hvar, rfl⟩)
  | compare test width lhs rhs =>
      cases hfile
      have hcomparison : m.Comparison i (.absolute address) := hplaced
      unfold Comparison at hcomparison
      split at hcomparison
      · cases hcomparison
      · rcases hcomparison with ⟨_, htemp⟩ | ⟨var, _, hcopy, hvar, heq⟩
        · exact .inl ⟨.bit, rfl, htemp⟩
        · cases heq
          obtain ⟨target, hassign, htarget⟩ := Storage.copyTarget?_bit hcopy
          rw [← m.codeOf_final] at hassign htarget
          exact .inr (.inr ⟨_, target, var, hassign, htarget, ⟨_, _, _, _, rfl⟩, hvar, rfl⟩)
  | math o width lhs rhs =>
      cases hfile
      exact .inl ⟨width, rfl, hplaced⟩
  | element | address =>
      cases hfile
      exact .inl ⟨.word, rfl, hplaced⟩
  | call function result =>
      cases result with
      | none => cases hfile
      | some width =>
          cases hfile
          exact .inl ⟨width, rfl, hplaced⟩
  | _ => cases hfile

/-- The last use of a value is that of its last user before storage was given. -/
theorem lastUse_of_value (m : s.Member label) (l : m.Lineage) {r : Nat} {x : Instruction}
    (hx : (codeOf m.final.body)[r]? = some x) (hlive : x ≠ .removed) (hstorage : x.isStorage = false) :
    m.lastUse r = (Flat.lastUser r 0 l.settled).getD r := by
  have hsimple := m.simple_of_codeOf_final hx hlive
  obtain ⟨op, hop, _⟩ := Flat.exists_of_codeOf_getElem? (m.codeOf_final ▸ hx)
  obtain ⟨old, hold⟩ := m.ported.exists_old hop
  rw [lastUse, hop, Option.bind_some, (m.ported.kept r old op hold hop).1]
  rw [Flat.codeOf_getElem? hold] at hsimple
  have hinstr : old.instruction = x := Option.some.inj hsimple
  rw [l.body_eq] at hold
  obtain ⟨before, _, rfl⟩ := Flat.exists_of_withLastUses hold
  have hstorage' : before.instruction.isStorage = false := by
    rw [show before.instruction = x from hinstr]
    exact hstorage
  simp only [Flat.lastUseIn, hstorage']
  cases Flat.lastUser r 0 l.settled with
  | none => rfl
  | some user => rfl

/-- The last user of a value is one of its users. -/
theorem user_of_lastUser (m : s.Member label) (l : m.Lineage) {r user : Nat}
    (h : Flat.lastUser r 0 l.settled = some user) :
    ∃ y, (codeOf m.simple.body)[user]? = some y ∧ r ∈ y.operands := by
  obtain ⟨op, hop, hr⟩ := Flat.operand_of_lastUser h
  have hcode := Flat.codeOf_getElem? hop
  rw [← Flat.codeOf_withLastUses l.settled, ← l.body_eq] at hcode
  exact ⟨op.instruction, hcode, hr⟩

/-- **A value is used last by its only user.**  Storage that has a name is left out, as it counts as
used up to the end of the body. -/
theorem lastUse_eq (m : s.Member label) {j r : Nat} {x y : Instruction}
    (hy : (codeOf m.final.body)[j]? = some y) (hr : r ∈ y.operands)
    (hx : (codeOf m.final.body)[r]? = some x) (hlive : x ≠ .removed) (hstorage : x.isStorage = false) :
    m.lastUse r = j := by
  obtain ⟨l⟩ := m.exists_lineage
  have hylive : y ≠ .removed := by
    rintro rfl
    cases hr
  have huser := m.simple_of_codeOf_final hy hylive
  rw [m.lastUse_of_value l hx hlive hstorage]
  have hcode : codeOf m.simple.body = codeOf l.settled := by
    rw [l.body_eq, Flat.codeOf_withLastUses]
  obtain ⟨user, huser', hsame⟩ := Flat.exists_of_codeOf_getElem? (hcode ▸ huser)
  obtain ⟨last, hlast, _⟩ := Storage.lastUser_spec 0 huser' (hsame ▸ hr)
  obtain ⟨y', hy', hr'⟩ := m.user_of_lastUser l hlast
  rw [hlast, Option.getD_some]
  exact l.linear.once last j _ _ r hy' huser hr' hr

end Stages.Member

end Stackless
