import Stackless.Proofs.Frames

/-!
# Slots are inside their windows

A frame hands out slots from pools and counts them in the end, so every slot that it gave is
below the count of its window.  There are two sources.  Locals are pinned first, and whatever reads
or writes a local, be it a variable, a comparison or a port, has the slot of the local
(`Scope.Knows`).  All other slots are claimed while the ops are visited, and those are above the
pinned ones (`Visit.ops_sources`).  So all slots are counted (`slotsFit_of_frame`).
-/

namespace Stackless.Storage

open Flat (Op Instruction Offset File Width Var Function)

/-- A slot, if it is one, is among the first slots of its file. -/
def Fits (counts : File → Nat) (offset : Offset) : Prop :=
  ∀ file slot, offset = .relative file slot → slot < counts file

/-- All slots of a function are inside its windows. -/
def SlotsFit (f : Function) : Prop :=
  (∀ op ∈ f.body, Fits (fun file => (f.window file).count) op.offset) ∧
    ∀ name offset, f.locals.find? name = some offset →
      Fits (fun file => (f.window file).count) offset

/-- How many slots of a file pools have handed out. -/
def Pools.counts (p : Pools) (file : File) : Nat :=
  (p.pool file).count

section Offsets

/-- An op of a body that was changed at an index is an old one, or an old one changed. -/
theorem mem_modify {body : List Op} {index : Nat} {change : Op → Op} {op : Op}
    (h : op ∈ body.modify index change) : op ∈ body ∨ ∃ old ∈ body, op = change old := by
  obtain ⟨i, hi⟩ := List.mem_iff_getElem?.mp h
  rw [Flat.getElem?_modify_eq] at hi
  split at hi
  · obtain ⟨old, hold, rfl⟩ := Option.map_eq_some_iff.mp hi
    exact .inr ⟨old, List.mem_of_getElem? hold, rfl⟩
  · exact .inl (List.mem_of_getElem? hi)

/-- Reading a port straight into a variable gives it the offset of the variable. -/
theorem passPort_knows {scope : Scope} {body out : List Op} {passed passed' : List Nat} {index : Nat}
    (hbody : ∀ op ∈ body, scope.Knows op.offset)
    (h : passPort scope body passed index = .ok (out, passed')) :
    ∀ op ∈ out, scope.Knows op.offset := by
  obtain ⟨instruction, _, h⟩ := bind_eq_ok.mp h
  split at h
  · obtain ⟨place, _, h⟩ := bind_eq_ok.mp h
    obtain ⟨source, _, h⟩ := bind_eq_ok.mp h
    split at h
    · obtain ⟨offset, hoffset, h⟩ := bind_eq_ok.mp h
      cases h
      have hremove : ∀ (ops : List Op) (i : Nat), (∀ op ∈ ops, scope.Knows op.offset) →
          ∀ op ∈ ops.modify i Op.remove, scope.Knows op.offset := by
        intro ops i hops op hop
        rcases mem_modify hop with hop | ⟨old, hold, rfl⟩
        · exact hops op hop
        · exact hops old hold
      refine hremove _ _ (hremove _ _ fun op hop => ?_)
      rcases mem_modify hop with hop | ⟨old, _, rfl⟩
      · exact hbody op hop
      · exact Scope.knows_var hoffset
    · cases h
      exact hbody
  · cases h
    exact hbody

/-- Reading ports straight into variables gives them the offsets of the variables. -/
theorem passPorts_knows {scope : Scope} {body out : List Op} {passed : List Nat}
    (hbody : ∀ op ∈ body, scope.Knows op.offset)
    (h : passPorts scope body = .ok (out, passed)) : ∀ op ∈ out, scope.Knows op.offset := by
  exact foldlM_keeps (fun state => ∀ op ∈ state.1, scope.Knows op.offset)
    (fun _ _ _ _ hstate hnext => passPort_knows hstate hnext) hbody h

end Offsets

namespace Visit

variable {v : Visit} {pins : File → Nat} {pools : Pools}

/-- **Where the slots of ops come from.**  The slot of an op, if it has one, is a local's, or was
claimed: then it is not pinned, and counted in the end. -/
theorem ops_sources :
    ∀ {ops out : List Op} {pools final : Pools} {index : Nat}, pools.Sound pins →
      (∀ op ∈ ops, v.scope.Knows op.offset) → v.ops pools index ops = .ok (out, final) →
      ∀ op ∈ out, v.scope.Knows op.offset ∨ ∃ file slot, op.offset = .relative file slot ∧
        pins file ≤ slot ∧ slot < final.counts file
  | [], out, pools, final, index, _, _, h => by
    cases h
    intro op hop
    cases hop
  | first :: rest, out, pools, final, index, hsound, hops, h => by
    obtain ⟨offset, next, out', hoffset, hrest, rfl⟩ := ops_cons h
    have hbehind : ∀ op ∈ rest, v.scope.Knows op.offset := fun op hop =>
      hops op (List.mem_cons_of_mem _ hop)
    rcases offset_cases hoffset with ⟨width, _, _, hclaimed⟩ | ⟨rfl, hknows, _⟩
    · cases hclaimed
      have hnext := hsound.claim width index (first.lastUse.getD index)
      obtain ⟨hslot, hpool, _⟩ := pools.claim_eq width index (first.lastUse.getD index)
      have htaken := SlotPool.claim_spec (hsound width.file) index (first.lastUse.getD index)
      have hcount := (ops_sound hnext hrest).2 width.file
      rw [hpool] at hcount
      intro op hop
      rcases List.mem_cons.mp hop with rfl | hop
      · exact .inr ⟨width.file, _, hslot, htaken.pins_le, Nat.lt_of_lt_of_le htaken.lt_count hcount⟩
      · exact ops_sources hnext hbehind hrest op hop
    · intro op hop
      rcases List.mem_cons.mp hop with rfl | hop
      · cases offset with
        | none => exact .inl (hops first List.mem_cons_self)
        | some offset => exact .inl (hknows offset rfl)
      · exact ops_sources hsound hbehind hrest op hop

end Visit

section Frames

variable {globals : Table Nat} {source : Model.Function} {f g : Function}

/-- **Where the slots of a frame come from.**  The slot of an op is a local's, or it is counted but
not pinned. -/
theorem Framing.op_sources (fr : Framing globals source f g) (hlocals : f.locals = ∅)
    (hbody : ∀ op ∈ f.body, op.offset = .unresolved) : ∀ op ∈ g.body,
      fr.visit.scope.Knows op.offset ∨ ∃ file slot, op.offset = .relative file slot ∧
        (pinResult fr.pinned fr.symbols source.returns).1.counts file ≤ slot ∧
        slot < fr.pools.counts file := by
  have hports : ∀ op ∈ fr.visit.body, fr.visit.scope.Knows op.offset := by
    refine passPorts_knows (fun op hop => ?_) fr.pass_eq
    rw [hbody op hop]
    exact fr.visit.scope.knows_unresolved
  rw [fr.result.1]
  exact Visit.ops_sources (fr.locals_pinned hlocals).sound hports fr.ops_eq

/-- The slots of a frame are inside its windows. -/
theorem Framing.slotsFit (fr : Framing globals source f g) (hlocals : f.locals = ∅)
    (hbody : ∀ op ∈ f.body, op.offset = .unresolved) : SlotsFit g := by
  obtain ⟨_, hglocals, hcount⟩ := fr.result
  have hcounts : (fun file => (g.window file).count) = fr.pools.counts := funext hcount
  have hpinned := fr.locals_pinned hlocals
  have hlocal : ∀ name offset, fr.visit.scope.locals.find? name = some offset →
      Fits fr.pools.counts offset := by
    intro name offset hfind file slot heq
    obtain ⟨file', slot', hoffset, hlt⟩ := hpinned.slots name offset hfind
    rw [heq] at hoffset
    obtain ⟨rfl, rfl⟩ := Offset.relative.inj hoffset
    exact Nat.lt_of_lt_of_le hlt ((Visit.ops_sound hpinned.sound fr.ops_eq).2 file)
  rw [SlotsFit, hcounts, hglocals]
  refine ⟨fun op hop file slot heq => ?_, hlocal⟩
  rcases fr.op_sources hlocals hbody op hop with hknows | ⟨file', slot', hoffset, _, hlt⟩
  · obtain ⟨name, hfind⟩ := hknows file slot heq
    exact hlocal name _ hfind file slot heq
  · rw [heq] at hoffset
    obtain ⟨rfl, rfl⟩ := Offset.relative.inj hoffset
    exact hlt

/-- **The slots of a frame are inside its windows**, if the body had no offsets before. -/
theorem slotsFit_of_frame (h : frame globals source f = .ok g) (hlocals : f.locals = ∅)
    (hbody : ∀ op ∈ f.body, op.offset = .unresolved) : SlotsFit g := by
  obtain ⟨fr⟩ := framing_of_frame h
  exact fr.slotsFit hlocals hbody

end Frames

end Stackless.Storage
