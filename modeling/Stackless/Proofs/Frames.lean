import Stackless.Proofs.Passes
import Stackless.Proofs.SlotLives
import Stackless.Proofs.WindowStacking

/-!
# Frames from the inside

What the steps of a frame leave behind, besides the slots that are claimed.

* `Pinned` — every local has a slot of its own below the pinned ones, and no slot has
  a life yet;
* `Ported` — reading ports straight into variables takes out assignments and
  their places, and changes no other instruction; each port read that was passed
  on is the value of an assignment;
* `le_last_use` — a last use is not before any use;
* `anchorOffset_relative` — slots of a window have different addresses, all in
  the window.
-/

namespace Stackless.Storage

open Flat (Op Instruction Offset File Width Function lastUser lastUseIn withLastUses)
open Model (Symbol)

section Pinning

/-- Pinning takes the next slot of the file. -/
theorem Pools.pin_eq (p : Pools) (file : File) :
    (p.pin file).1 = .relative file (p.pool file).count ∧
      ∀ other, ((p.pin file).2.pool other).lives = (p.pool other).lives ∧
        ((p.pin file).2.pool other).count =
          (p.pool other).count + if other = file then 1 else 0 := by
  cases file with
  | register =>
      refine ⟨rfl, fun other => ?_⟩
      cases other with
      | register => exact ⟨rfl, rfl⟩
      | bit => exact ⟨rfl, rfl⟩
  | bit =>
      refine ⟨rfl, fun other => ?_⟩
      cases other with
      | register => exact ⟨rfl, rfl⟩
      | bit => exact ⟨rfl, rfl⟩

/-- Pools that have only pinned slots, with the locals that have them. The locals and the result of
a function are pinned in this way, one by one, before its ops are visited. -/
structure Pinned (pools : Pools) (locals : Table Offset) : Prop where
  lives : ∀ file, (pools.pool file).lives = []
  slots : ∀ name offset, locals.find? name = some offset →
    ∃ file slot, offset = .relative file slot ∧ slot < (pools.pool file).count
  /-- No two locals have one slot. -/
  distinct : ∀ name name' offset, locals.find? name = some offset →
    locals.find? name' = some offset → name = name'

namespace Pinned

variable {pools : Pools} {locals : Table Offset}

/-- At first nothing is pinned. -/
theorem empty : Pinned {} ∅ where
  lives := fun file => by
    cases file with
    | register => rfl
    | bit => rfl
  slots := fun name offset h => by cases h
  distinct := fun name name' offset h => by cases h

/-- The slot that is pinned next is no local's. -/
theorem ne_pin (h : Pinned pools locals) (file : File) {name : String} {offset : Offset}
    (hfind : locals.find? name = some offset) : offset ≠ (pools.pin file).1 := by
  obtain ⟨file', slot, rfl, hlt⟩ := h.slots name offset hfind
  rw [(pools.pin_eq file).1]
  intro heq
  cases heq
  exact Nat.lt_irrefl _ hlt

/-- Pinning one more local. -/
theorem pin (h : Pinned pools locals) (file : File) (name : String) :
    Pinned (pools.pin file).2 (locals.insert name (pools.pin file).1) := by
  obtain ⟨hoffset, hpools⟩ := pools.pin_eq file
  constructor
  · intro other
    rw [(hpools other).1]
    exact h.lives other
  · intro other offset hfind
    rw [Table.find?_insert] at hfind
    split at hfind
    · cases hfind
      refine ⟨file, _, hoffset, ?_⟩
      rw [(hpools file).2, if_pos rfl]
      omega
    · obtain ⟨file', slot, heq, hlt⟩ := h.slots other offset hfind
      refine ⟨file', slot, heq, ?_⟩
      rw [(hpools file').2]
      omega
  · intro first other offset hfirst hother
    rw [Table.find?_insert] at hfirst hother
    split at hfirst
    · split at hother
      · rename_i hfirst' hother'
        exact hfirst'.trans hother'.symm
      · cases hfirst
        exact absurd rfl (h.ne_pin file hother)
    · split at hother
      · cases hother
        exact absurd rfl (h.ne_pin file hfirst)
      · exact h.distinct first other offset hfirst hother

/-- Pinning the locals of a function. -/
theorem pinLocals :
    ∀ {entries : List (String × Symbol)} {pools pools' : Pools} {locals locals' : Table Offset},
      Pinned pools locals → Storage.pinLocals pools locals entries = .ok (pools', locals') →
      Pinned pools' locals'
  | [], pools, pools', locals, locals', h, heq => by
    cases heq
    exact h
  | (name, symbol) :: rest, pools, pools', locals, locals', h, heq => by
    rw [Storage.pinLocals] at heq
    split at heq
    · exact pinLocals (h.pin .register name) heq
    · exact pinLocals (h.pin .bit name) heq
    · exact pinLocals h heq
    · cases heq

theorem pinResult (h : Pinned pools locals) (returns : Option Model.ValueType) :
    Pinned (Storage.pinResult pools locals returns).1 (Storage.pinResult pools locals returns).2 := by
  cases returns with
  | none => exact h
  | some type => exact h.pin (fileOf type) resultName

theorem sound (h : Pinned pools locals) : pools.Sound fun file => (pools.pool file).count :=
  fun file => SlotPool.sound_of_lives_nil (h.lives file)

end Pinned

/-- The pins of a frame: all locals are pinned, and the visit starts with sound
pools. -/
theorem Framing.locals_pinned {globals : Table Nat} {source : Model.Function} {f g : Function}
    (fr : Framing globals source f g) (hf : f.locals = ∅) :
    Pinned (pinResult fr.pinned fr.symbols source.returns).1 fr.visit.scope.locals := by
  have hpin := fr.pin_eq
  rw [hf] at hpin
  rw [fr.scope_eq]
  exact (Pinned.empty.pinLocals hpin).pinResult source.returns

/-- What a frame keeps of its values: the body and the locals that were made, and the
number of slots. -/
theorem Framing.result {globals : Table Nat} {source : Model.Function} {f g : Function}
    (fr : Framing globals source f g) : g.body = fr.body ∧ g.locals = fr.visit.scope.locals ∧
      ∀ file, (g.window file).count = (fr.pools.pool file).count := by
  refine ⟨congrArg Function.body fr.frame_eq, congrArg Function.locals fr.frame_eq, fun file => ?_⟩
  refine (congrArg (fun f => (Function.window f file).count) fr.frame_eq).trans ?_
  cases file with
  | register => rfl
  | bit => rfl

end Pinning

section Ports

/-- What reading ports straight into variables does to a body. Ops stay where they are and are used
as long as before; some are taken out, and only reads of ports get another offset. -/
structure Ported (before body : List Op) (passed : List Nat) : Prop where
  length_eq : body.length = before.length
  kept : ∀ (i : Nat) op op', before[i]? = some op → body[i]? = some op' →
    op'.lastUse = op.lastUse ∧
    (op'.instruction = op.instruction ∨ op'.instruction = .removed) ∧
    (op'.offset = op.offset ∨ ∃ var, op.instruction = .portIn var)
  assigned : ∀ port ∈ passed, ∃ (u : Nat) (op : Op) (target : Nat), before[u]? = some op ∧
    op.instruction = .assign none .word target port

namespace Ported

variable {before body : List Op} {passed : List Nat}

theorem refl (body : List Op) : Ported body body [] := by
  refine ⟨rfl, fun i op op' h h' => ?_, by simp⟩
  rw [h] at h'
  cases h'
  exact ⟨rfl, .inl rfl, .inl rfl⟩

/-- Every op of the new body comes from the op at its index. -/
theorem exists_old (h : Ported before body passed) {i : Nat} {op' : Op}
    (hop' : body[i]? = some op') : ∃ op, before[i]? = some op := by
  have hlt : i < before.length := by
    rw [← h.length_eq]
    exact (List.getElem?_eq_some_iff.mp hop').1
  exact ⟨_, List.getElem?_eq_getElem hlt⟩

/-- One op may be replaced if it stays what it was or is taken out. -/
theorem modify (h : Ported before body passed) {index : Nat} {change : Op → Op}
    (hchange : ∀ op, body[index]? = some op → (change op).lastUse = op.lastUse ∧
      ((change op).instruction = op.instruction ∨ (change op).instruction = .removed) ∧
      ((change op).offset = op.offset ∨ ∃ var, op.instruction = .portIn var)) :
    Ported before (body.modify index change) passed := by
  refine ⟨(List.length_modify ..).trans h.length_eq, fun i op op' hop hop' => ?_, h.assigned⟩
  rw [Flat.getElem?_modify_eq] at hop'
  split at hop'
  · rename_i hi
    subst hi
    obtain ⟨mid, hmid, rfl⟩ := Option.map_eq_some_iff.mp hop'
    obtain ⟨hlast, hinstr, hoffset⟩ := h.kept index op mid hop hmid
    obtain ⟨hlast', hinstr', hoffset'⟩ := hchange mid hmid
    refine ⟨hlast'.trans hlast, ?_, ?_⟩
    · rcases hinstr' with heq | heq
      · rw [heq]
        exact hinstr
      · exact .inr heq
    · rcases hoffset' with heq | ⟨var, hvar⟩
      · rw [heq]
        exact hoffset
      · rcases hinstr with heq | heq
        · exact .inr ⟨var, heq ▸ hvar⟩
        · rw [heq] at hvar
          cases hvar
  · exact h.kept i op op' hop hop'

theorem remove (h : Ported before body passed) (index : Nat) :
    Ported before (body.modify index Op.remove) passed :=
  h.modify fun _ _ => ⟨rfl, .inr rfl, .inl rfl⟩

/-- Operands are indices as before. -/
theorem closed (h : Ported before body passed) (hclosed : Flat.Closed before) :
    Flat.Closed body := by
  intro op hop r hr
  obtain ⟨i, hi⟩ := List.mem_iff_getElem?.mp hop
  obtain ⟨old, hold⟩ := h.exists_old hi
  rw [h.length_eq]
  rcases (h.kept i old op hold hi).2.1 with heq | heq
  · rw [heq] at hr
    exact hclosed old (List.mem_of_getElem? hold) r hr
  · rw [heq] at hr
    cases hr

end Ported

/-- An instruction that must be there is that of the op at the index. -/
theorem instructionAt_eq_ok {body : List Op} {index : Nat} {instruction : Instruction}
    (h : instructionAt body index = .ok instruction) :
    ∃ op, body[index]? = some op ∧ op.instruction = instruction := by
  obtain ⟨op, hop, h⟩ := bind_eq_ok.mp h
  cases h
  cases hbody : body[index]? with
  | none =>
      rw [hbody] at hop
      cases hop
  | some op' =>
      rw [hbody] at hop
      cases hop
      exact ⟨op, rfl, rfl⟩

/-- Reading one port straight into a variable. -/
theorem ported_of_passPort {scope : Scope} {before body out : List Op} {passed passed' : List Nat}
    {index : Nat} (h : Ported before body passed)
    (heq : passPort scope body passed index = .ok (out, passed')) : Ported before out passed' := by
  obtain ⟨instruction, hinstruction, heq⟩ := bind_eq_ok.mp heq
  split at heq
  · rename_i target value
    obtain ⟨place, hplace, heq⟩ := bind_eq_ok.mp heq
    obtain ⟨source, hsource, heq⟩ := bind_eq_ok.mp heq
    split at heq
    · obtain ⟨offset, _, heq⟩ := bind_eq_ok.mp heq
      cases heq
      obtain ⟨assign, hassign, hinstr⟩ := instructionAt_eq_ok hinstruction
      obtain ⟨port, hport, hportInstr⟩ := instructionAt_eq_ok hsource
      have hall : Ported before
          (((body.modify value fun op => { op with offset }).modify target Op.remove).modify index
            Op.remove) passed := by
        refine Ported.remove (Ported.remove (h.modify ?_) target) index
        intro op hop
        refine ⟨rfl, .inl rfl, .inr ?_⟩
        rw [hport] at hop
        cases hop
        exact ⟨_, hportInstr⟩
      refine ⟨hall.length_eq, hall.kept, fun p hp => ?_⟩
      rcases List.mem_append.mp hp with hp | hp
      · exact h.assigned p hp
      · rw [List.mem_singleton.mp hp]
        obtain ⟨old, hold⟩ := h.exists_old hassign
        rcases (h.kept index old assign hold hassign).2.1 with heq | heq
        · exact ⟨index, old, target, hold, heq ▸ hinstr⟩
        · rw [hinstr] at heq
          cases heq
    · cases heq
      exact h
  · cases heq
    exact h

/-- **Reading ports straight into variables.** -/
theorem ported_of_passPorts {scope : Scope} {body out : List Op} {passed : List Nat}
    (h : passPorts scope body = .ok (out, passed)) : Ported body out passed := by
  exact foldlM_keeps (fun state => Ported body state.1 state.2)
    (fun _ _ _ _ hstate hnext => ported_of_passPort hstate hnext) (.refl body) h

/-- A comparison that is copied is the value of an assignment, its last user. -/
theorem copyTarget?_eq_some {body : List Op} {index last : Nat} {var : Flat.Var}
    (h : copyTarget? body index last = .ok (some var)) :
    ∃ op target, body[last]? = some op ∧ op.instruction = .assign none .bit target index := by
  unfold copyTarget? at h
  split at h
  · rename_i op hop
    split at h
    · rename_i target value hinstr
      split at h
      · rename_i hvalue
        exact ⟨op, target, hop, hvalue ▸ hinstr⟩
      · cases h
    · cases h
  · cases h

end Ports

section LastUses

/-- A last user is an index of the list. -/
theorem lastUser_bounds {r : Nat} :
    ∀ {ops : List Op} {start user : Nat}, lastUser r start ops = some user →
      start ≤ user ∧ user < start + ops.length
  | [], _, _, h => by cases h
  | first :: rest, start, user, h => by
    rw [lastUser] at h
    rw [List.length_cons]
    split at h
    · rename_i user' hlast
      cases h
      have := lastUser_bounds hlast
      omega
    · split at h
      · cases h
        omega
      · cases h

/-- The last user of a value is not before any user. -/
theorem lastUser_spec {r : Nat} :
    ∀ {ops : List Op} (start : Nat) {n : Nat} {op : Op}, ops[n]? = some op → r ∈ op.instruction.operands →
      ∃ user, lastUser r start ops = some user ∧ start + n ≤ user
  | [], _, _, _, h, _ => by cases h
  | first :: rest, start, n, op, h, hr => by
    rw [lastUser]
    cases hlast : lastUser r (start + 1) rest with
    | some user =>
        refine ⟨user, rfl, ?_⟩
        cases n with
        | zero =>
            have := lastUser_bounds hlast
            omega
        | succ n =>
            obtain ⟨user', huser', hle⟩ := lastUser_spec (start + 1) (show rest[n]? = _ from h) hr
            rw [hlast] at huser'
            cases huser'
            omega
    | none =>
        cases n with
        | zero =>
            cases h
            exact ⟨start, if_pos hr, Nat.le_refl _⟩
        | succ n =>
            obtain ⟨user', huser', _⟩ := lastUser_spec (start + 1) (show rest[n]? = _ from h) hr
            rw [hlast] at huser'
            cases huser'

/-- **A last use is not before any use.**  The walk over a body keeps the latest user that it finds,
and a value that has none is used last where it stands. -/
theorem le_last_use {body : List Op} {i j : Nat} {op user : Op}
    (huser : body[j]? = some user) (hi : i ∈ user.instruction.operands) :
    j ≤ (lastUseIn body i op).getD i := by
  obtain ⟨last, hlast, hle⟩ := lastUser_spec 0 huser hi
  have hlt := (lastUser_bounds hlast).2
  rw [lastUseIn, hlast]
  show j ≤ if op.instruction.isStorage then body.length else last
  split
  · omega
  · omega

end LastUses

section Anchoring

/-- A slot of a window has an address, counted down from the top. -/
theorem addressIn_eq_ok {w : Flat.Window} {slot address : Nat}
    (h : addressIn w slot = .ok address) : slot < w.base + w.count ∧
      address = w.base + w.count - slot - 1 := by
  obtain ⟨top, htop, h⟩ := bind_eq_ok.mp h
  obtain ⟨below, hbelow, h⟩ := bind_eq_ok.mp h
  have htop := Flat.Window.upper_eq_ok htop
  obtain ⟨hle, hsub⟩ := checkedSub_eq_ok.mp hbelow
  obtain ⟨hle', hsub'⟩ := checkedSub_eq_ok.mp h
  omega

/-- **The address of a slot.**  Slots are counted down from the end of the window, and a slot for
which that goes below the first cell of the file has no address. -/
theorem anchorOffset_relative {f : Function} {file : File} {slot : Nat} {offset : Offset}
    (h : anchorOffset f.registers f.bits (.relative file slot) = .ok offset) :
    slot < (f.window file).base + (f.window file).count ∧
      offset = .absolute ((f.window file).base + (f.window file).count - slot - 1) := by
  cases file with
  | register =>
      obtain ⟨address, haddress, h⟩ := bind_eq_ok.mp h
      cases h
      obtain ⟨hlt, rfl⟩ := addressIn_eq_ok haddress
      exact ⟨hlt, rfl⟩
  | bit =>
      obtain ⟨address, haddress, h⟩ := bind_eq_ok.mp h
      cases h
      obtain ⟨hlt, rfl⟩ := addressIn_eq_ok haddress
      exact ⟨hlt, rfl⟩

end Anchoring

end Stackless.Storage
