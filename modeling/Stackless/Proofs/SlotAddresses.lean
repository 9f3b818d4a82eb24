import Stackless.Proofs.GlobalsApart
import Stackless.Proofs.Sources
import Stackless.Proofs.WindowLimits

/-!
# Slots become the addresses of their window

A function keeps offsets at its **spots**: at its ops and at its locals.  When the windows are
placed, some of these offsets are slots, and anchoring puts addresses for them.  In each file the
slots of a function and the addresses of its window correspond one to one.

* *Into.*  Every slot is below the count of its window (`SlotsFit`), so its address is in the window
  (`anchored_of_fit`), and different slots have different addresses.
* *Onto.*  No slot is left over.  A slot is counted when it is handed out: a pinned one goes to a
  local at once (`Housed`), a claimed one to the op that claims it (`Visit.ops_onto`), and a slot
  that is used again has an op already.

The one exception are functions that have a result and a symbol with the name of the result: both
are pinned under the name, the result later, so the slot of the symbol is nobody's in the end
(`Framing.hole`).  `OwnsResultName` leaves them out.
-/

namespace Stackless

open Flat (Op Offset File Width Function)
open Model (Symbol)

namespace Flat

/-- A place of a function that keeps an offset. -/
inductive Spot where
  | op (index : Nat)
  | localVar (name : String)
  deriving DecidableEq

/-- The offset at a spot, if the function has the spot. -/
def Function.offsetAt? (f : Function) : Spot → Option Offset
  | .op index => (f.body[index]?).map (·.offset)
  | .localVar name => f.locals.find? name

end Flat

open Flat (Spot)

/-- No symbol has the name under which the slot of the result is kept, if there is a result. -/
def Model.Function.OwnsResultName (f : Model.Function) : Prop :=
  f.returns.isSome → f.symbols.find? Storage.resultName = none

instance (f : Model.Function) : Decidable f.OwnsResultName :=
  inferInstanceAs (Decidable (_ → _))

/-- Then no symbol shares a slot with the result, in whatever file. -/
theorem Model.Function.OwnsResultName.keepsResult {f : Model.Function} (h : f.OwnsResultName) :
    f.KeepsResult := by
  intro symbol type file hsymbol htype
  rw [h (by rw [htype]; rfl)] at hsymbol
  cases hsymbol

namespace Storage

section Pinning

/-- Every slot that pools have handed out is some local's. It holds before ops are visited, when all
slots are pinned. -/
def Housed (pools : Pools) (locals : Table Offset) : Prop :=
  ∀ file slot, slot < (pools.pool file).count →
    ∃ name, locals.find? name = some (.relative file slot)

namespace Housed

variable {pools : Pools} {locals : Table Offset}

theorem empty : Housed {} ∅ := by
  intro file slot hlt
  cases file with
  | register => cases hlt
  | bit => cases hlt

/-- Pinning under a new name. -/
theorem pin (h : Housed pools locals) (file : File) {name : String}
    (hnew : locals.find? name = none) :
    Housed (pools.pin file).2 (locals.insert name (pools.pin file).1) := by
  obtain ⟨hoffset, hpools⟩ := pools.pin_eq file
  intro other slot hlt
  rw [(hpools other).2] at hlt
  by_cases hold : slot < (pools.pool other).count
  · obtain ⟨name', hname'⟩ := h other slot hold
    have hne : name' ≠ name := by
      rintro rfl
      rw [hnew] at hname'
      cases hname'
    exact ⟨name', (Table.find?_insert_of_ne _ _ hne).trans hname'⟩
  · -- the slot is the new one
    split at hlt
    · rename_i hfile
      subst hfile
      have hslot : slot = (pools.pool other).count := by omega
      exact ⟨name, by rw [Table.find?_insert_self, hoffset, hslot]⟩
    · omega

/-- Pinning the locals of a function. -/
theorem pinLocals :
    ∀ {entries : List (String × Symbol)} {pools pools' : Pools} {locals locals' : Table Offset},
      entries.Pairwise (fun a b => a.1 < b.1) → (∀ e ∈ entries, locals.find? e.1 = none) →
      Housed pools locals → Storage.pinLocals pools locals entries = .ok (pools', locals') →
      Housed pools' locals'
  | [], pools, pools', locals, locals', _, _, h, heq => by
    cases heq
    exact h
  | (name, symbol) :: rest, pools, pools', locals, locals', hascending, hnew, h, heq => by
    obtain ⟨hname, hascending⟩ := List.pairwise_cons.mp hascending
    have hrest : ∀ e ∈ rest, locals.find? e.1 = none := fun e he =>
      hnew e (List.mem_cons_of_mem _ he)
    have hnext : ∀ offset, ∀ e ∈ rest, (locals.insert name offset).find? e.1 = none := by
      intro offset e he
      have hne : e.1 ≠ name := fun heq => String.lt_irrefl _ (heq ▸ hname e he)
      rw [Table.find?_insert_of_ne _ _ hne]
      exact hrest e he
    have hpin := fun file => h.pin file (hnew (name, symbol) List.mem_cons_self)
    rw [Storage.pinLocals] at heq
    split at heq
    · exact pinLocals hascending (hnext _) (hpin .register) heq
    · exact pinLocals hascending (hnext _) (hpin .bit) heq
    · exact pinLocals hascending hrest h heq
    · cases heq

/-- Pinning the result of a function. -/
theorem pinResult (h : Housed pools locals) {returns : Option Model.ValueType}
    (hnew : returns.isSome → locals.find? resultName = none) :
    Housed (Storage.pinResult pools locals returns).1
      (Storage.pinResult pools locals returns).2 := by
  cases returns with
  | none => exact h
  | some type => exact h.pin (fileOf type) (hnew rfl)

end Housed

/-- **Every pinned slot is a local's.** -/
theorem Framing.locals_housed {globals : Table Nat} {source : Model.Function} {f g : Function}
    (fr : Framing globals source f g) (hf : f.locals = ∅) (hname : source.OwnsResultName) :
    Housed (pinResult fr.pinned fr.symbols source.returns).1 fr.visit.scope.locals := by
  have hpin := fr.pin_eq
  rw [hf] at hpin
  have hascending := source.symbols.ascending
  have hhoused := Housed.empty.pinLocals hascending (fun _ _ => rfl) hpin
  rw [fr.scope_eq]
  refine hhoused.pinResult fun hreturns => ?_
  exact (pinsAs_of_pinLocals resultName hascending hpin).other (hname hreturns)

end Pinning

section Claims

/-- A slot that is counted behind a claim was counted before, or is the one that was claimed. -/
theorem SlotPool.lt_count_claim {p : SlotPool} {start last slot : Nat}
    (h : slot < (p.claim start last).2.count) :
    slot < p.count ∨ slot = (p.claim start last).1 := by
  rcases p.claim_cases start last with ⟨first, rest, _, _, hclaim⟩ | ⟨_, hclaim⟩
  · rw [hclaim] at h
    exact .inl h
  · rw [hclaim] at h ⊢
    dsimp only at h ⊢
    omega

theorem Pools.lt_count_claim {p : Pools} {width : Width} {start last slot : Nat} {file : File}
    (h : slot < ((p.claim width start last).2.pool file).count) :
    slot < (p.pool file).count ∨ (p.claim width start last).1 = .relative file slot := by
  obtain ⟨hoffset, hsame, hother⟩ := p.claim_eq width start last
  by_cases hfile : file = width.file
  · subst hfile
    rw [hsame] at h
    rcases SlotPool.lt_count_claim h with hlt | hslot
    · exact .inl hlt
    · exact .inr (by rw [hoffset, hslot])
  · rw [hother file hfile] at h
    exact .inl h

/-- **Every slot that a visit adds is an op's.**  No slot is handed out and then left to nobody, so
that the addresses of a window are all taken. -/
theorem Visit.ops_onto {v : Visit} {file : File} {slot : Nat} :
    ∀ {ops out : List Op} {pools final : Pools} {index : Nat},
      v.ops pools index ops = .ok (out, final) → slot < (final.pool file).count →
      slot < (pools.pool file).count ∨ ∃ op ∈ out, op.offset = .relative file slot
  | [], out, pools, final, index, h, hlt => by
    cases h
    exact .inl hlt
  | op :: rest, out, pools, final, index, h, hlt => by
    obtain ⟨offset, next, out', hoffset, hrest, rfl⟩ := ops_cons h
    rcases ops_onto hrest hlt with hnext | ⟨op', hop', hslot⟩
    · rcases offset_cases hoffset with ⟨width, _, _, hclaimed⟩ | ⟨rfl, _⟩
      · cases hclaimed
        rcases Pools.lt_count_claim hnext with hold | hslot
        · exact .inl hold
        · exact .inr ⟨_, List.mem_cons_self, hslot⟩
      · exact .inl hnext
    · exact .inr ⟨op', List.mem_cons_of_mem _ hop', hslot⟩

/-- **A frame has no hole**: every slot that it counts is at one of its spots. -/
theorem Framing.onto {globals : Table Nat} {source : Model.Function} {f g : Function}
    (fr : Framing globals source f g) (hf : f.locals = ∅) (hname : source.OwnsResultName)
    {file : File} {slot : Nat} (hlt : slot < (g.window file).count) :
    ∃ spot, g.offsetAt? spot = some (.relative file slot) := by
  obtain ⟨hbody, hlocals, hcount⟩ := fr.result
  rw [hcount file] at hlt
  rcases Visit.ops_onto fr.ops_eq hlt with hpinned | ⟨op, hop, hslot⟩
  · obtain ⟨name, hfind⟩ := fr.locals_housed hf hname file slot hpinned
    exact ⟨.localVar name, (congrArg (Table.find? · name) hlocals).trans hfind⟩
  · obtain ⟨index, hindex⟩ := List.mem_iff_getElem?.mp hop
    refine ⟨.op index, ?_⟩
    simp only [Flat.Function.offsetAt?, hbody, hindex, Option.map_some, hslot]

end Claims

section Holes

variable {globals : Table Nat} {source : Model.Function} {f g : Function}
  (fr : Framing globals source f g) (hf : f.locals = ∅) {type : Model.ValueType} {symbol : Symbol}
  {file : File} (hreturns : source.returns = some type)
  (hfind : source.symbols.find? resultName = some symbol)
  (hfile : fileOf? symbol.storage = some file)
include fr hf hreturns hfind hfile

/-- A symbol with the name of the result loses its slot, since the result is pinned behind it under
the same name. -/
theorem Framing.lost_slot :
    ∃ slot, slot < (pinResult fr.pinned fr.symbols source.returns).1.counts file ∧
      ∀ name, fr.visit.scope.locals.find? name ≠ some (.relative file slot) := by
  have hpin := fr.pin_eq
  rw [hf] at hpin
  have hsymbols := Pinned.empty.pinLocals hpin
  obtain ⟨slot, hslot⟩ :=
    (pinsAs_of_pinLocals resultName source.symbols.ascending hpin).mine symbol file hfind hfile
  obtain ⟨_, _, heq, hlt⟩ := hsymbols.slots resultName _ hslot
  obtain ⟨rfl, rfl⟩ := Offset.relative.inj heq
  rw [fr.scope_eq, hreturns]
  refine ⟨slot, Nat.lt_of_lt_of_le hlt ?_, fun name hname => ?_⟩
  · have hcount := ((Pools.pin_eq fr.pinned (fileOf type)).2 file).2
    rw [pinResult, Pools.counts, hcount]
    exact Nat.le_add_right _ _
  · have hname : (fr.symbols.insert resultName _).find? name = _ := hname
    rw [Table.find?_insert] at hname
    split at hname
    · exact hsymbols.ne_pin (fileOf type) hslot (Option.some.inj hname).symm
    · rename_i hne
      exact hne (hsymbols.distinct name resultName _ hname hslot)

/-- **A symbol with the name of the result leaves a hole**: nothing has its slot. -/
theorem Framing.hole (hbody : ∀ op ∈ f.body, op.offset = .unresolved) :
    ∃ slot, slot < (g.window file).count ∧
      ∀ spot, g.offsetAt? spot ≠ some (.relative file slot) := by
  obtain ⟨slot, hpinned, hlost⟩ := fr.lost_slot hf hreturns hfind hfile
  obtain ⟨_, hlocals, hcount⟩ := fr.result
  have hle := (Visit.ops_sound (fr.locals_pinned hf).sound fr.ops_eq).2 file
  refine ⟨slot, hcount file ▸ Nat.lt_of_lt_of_le hpinned hle, fun spot hspot => ?_⟩
  cases spot with
  | op index =>
      obtain ⟨op, hop, hoffset⟩ := Option.map_eq_some_iff.mp hspot
      rcases fr.op_sources hf hbody op (List.mem_of_getElem? hop) with
        hknows | ⟨_, _, hclaimed, habove, _⟩
      · obtain ⟨name, hname⟩ := hknows file slot hoffset
        exact hlost name (hoffset ▸ hname)
      · -- claimed slots are above the pinned ones
        rw [hoffset] at hclaimed
        obtain ⟨rfl, rfl⟩ := Offset.relative.inj hclaimed
        exact absurd hpinned (Nat.not_lt.mpr habove)
  | localVar name =>
      exact hlost name ((congrArg (Table.find? · name) hlocals).symm.trans hspot)

end Holes

section Anchoring

variable {before after : Function} {spot : Spot}

theorem SameBut.offsetAt?_eq {f g : Function} (h : SameBut f g) (spot : Spot) :
    g.offsetAt? spot = f.offsetAt? spot := by
  obtain ⟨_, _, rfl⟩ := h
  cases spot with
  | op index => rfl
  | localVar name => rfl

/-- Slots at spots are inside the windows. -/
theorem SlotsFit.fits {f : Function} (h : SlotsFit f) {offset : Offset}
    (hspot : f.offsetAt? spot = some offset) : Fits (fun file => (f.window file).count) offset := by
  cases spot with
  | op index =>
      obtain ⟨op, hop, rfl⟩ := Option.map_eq_some_iff.mp hspot
      exact h.1 op (List.mem_of_getElem? hop)
  | localVar name => exact h.2 name offset hspot

/-- Every spot gets its anchored offset. -/
theorem offsetAt?_anchor (h : anchor before = .ok after) {offset : Offset}
    (hspot : before.offsetAt? spot = some offset) : ∃ offset',
      anchorOffset before.registers before.bits offset = .ok offset' ∧
      after.offsetAt? spot = some offset' := by
  obtain ⟨body, locals, hbody, hlocals, rfl⟩ := anchor_eq_ok h
  cases spot with
  | op index =>
      obtain ⟨op, hop, rfl⟩ := Option.map_eq_some_iff.mp hspot
      obtain ⟨hlength, hall⟩ := mapM_eq_ok.mp hbody
      have hlt : index < body.length := hlength ▸ (List.getElem?_eq_some_iff.mp hop).1
      have hget := List.getElem?_eq_getElem hlt
      obtain ⟨offset', hoffset', heq⟩ := bind_eq_ok.mp (hall index _ _ hop hget)
      refine ⟨offset', hoffset', ?_⟩
      rw [Flat.Function.offsetAt?, hget, ← Except.ok.inj heq]
      rfl
  | localVar name => exact Table.find?_mapM hlocals hspot

/-- Anchoring makes no spots. -/
theorem offsetAt?_eq_none_of_anchor (h : anchor before = .ok after)
    (hnone : before.offsetAt? spot = none) : after.offsetAt? spot = none := by
  obtain ⟨body, locals, hbody, hlocals, rfl⟩ := anchor_eq_ok h
  cases spot with
  | op index =>
      have hle := List.getElem?_eq_none_iff.mp (Option.map_eq_none_iff.mp hnone)
      have hlength := (mapM_eq_ok.mp hbody).1
      exact Option.map_eq_none_iff.mpr (List.getElem?_eq_none_iff.mpr (hlength ▸ hle))
  | localVar name =>
      cases hfind : locals.find? name with
      | none => exact hfind
      | some offset' =>
          obtain ⟨_, hold, _⟩ := Table.find?_mapM_rev hlocals hfind
          rw [show before.locals.find? name = none from hnone] at hold
          cases hold

/-- **A slot becomes its address**, counted down from the top of the window. -/
theorem offsetAt?_anchor_relative (h : anchor before = .ok after) {file : File} {slot : Nat}
    (hspot : before.offsetAt? spot = some (.relative file slot)) :
    after.offsetAt? spot = some (.absolute
      ((before.window file).base + (before.window file).count - slot - 1)) := by
  obtain ⟨offset, hoffset, hafter⟩ := offsetAt?_anchor h hspot
  rw [hafter, (anchorOffset_relative hoffset).2]

/-- What is no slot stays. -/
theorem offsetAt?_anchor_of_ne (h : anchor before = .ok after)
    (hno : ∀ file slot, before.offsetAt? spot ≠ some (.relative file slot)) :
    after.offsetAt? spot = before.offsetAt? spot := by
  cases hspot : before.offsetAt? spot with
  | none => exact offsetAt?_eq_none_of_anchor h hspot
  | some offset =>
      obtain ⟨offset', hoffset', hafter⟩ := offsetAt?_anchor h hspot
      rw [hafter]
      cases offset with
      | relative file slot => exact absurd hspot (hno file slot)
      | unresolved | absolute =>
          cases hoffset'
          rfl

end Anchoring

/-- What anchoring does to a function, where the files have so many cells in use. -/
structure Anchored (total : File → Nat) (before after : Function) : Prop where
  window_eq : ∀ file, after.window file = before.window file
  /-- Every slot is below the count of its window. -/
  fits : ∀ spot file slot, before.offsetAt? spot = some (.relative file slot) →
    slot < (before.window file).count
  /-- A slot becomes an address of its window, counted down from the top, among the cells in
  use. -/
  address : ∀ spot file slot, before.offsetAt? spot = some (.relative file slot) →
    ∃ address, after.offsetAt? spot = some (.absolute address) ∧
      address + slot + 1 = (after.window file).base + (after.window file).count ∧
      (after.window file).Holds address ∧ address < total file
  /-- Nothing is a slot any more. -/
  no_slot : ∀ spot file slot, after.offsetAt? spot ≠ some (.relative file slot)
  /-- All other offsets are as before. -/
  others : ∀ spot, (∀ file slot, before.offsetAt? spot ≠ some (.relative file slot)) →
    after.offsetAt? spot = before.offsetAt? spot
  /-- Two slots of a file have one address just if they are the same slot. -/
  same_iff : ∀ spot spot' file slot slot', before.offsetAt? spot = some (.relative file slot) →
    before.offsetAt? spot' = some (.relative file slot') →
    (after.offsetAt? spot = after.offsetAt? spot' ↔ slot = slot')

/-- **Slots that are inside their windows are anchored there.**  Anchoring replaces a slot by an
address, different slots by different ones, and leaves alone all offsets that are no slots. -/
theorem anchored_of_fit {total : File → Nat} {before after : Function}
    (h : anchor before = .ok after) (hfit : SlotsFit before)
    (htotal : ∀ file, (after.window file).base + (after.window file).count ≤ total file) :
    Anchored total before after := by
  have hwindow := window_of_anchor h
  have hfits : ∀ spot file slot, before.offsetAt? spot = some (.relative file slot) →
      slot < (before.window file).count := fun spot file slot hspot => hfit.fits hspot file slot rfl
  refine ⟨hwindow, hfits, ?_, ?_, fun spot => offsetAt?_anchor_of_ne h, ?_⟩
  · intro spot file slot hspot
    have hlt := hfits spot file slot hspot
    have htop := htotal file
    unfold Flat.Window.Holds
    rw [hwindow] at htop ⊢
    exact ⟨_, offsetAt?_anchor_relative h hspot, by omega, by omega, by omega⟩
  · intro spot file slot hafter
    by_cases hspot : ∃ file' slot', before.offsetAt? spot = some (.relative file' slot')
    · obtain ⟨file', slot', hspot⟩ := hspot
      rw [offsetAt?_anchor_relative h hspot] at hafter
      cases hafter
    · rw [offsetAt?_anchor_of_ne h fun file' slot' heq => hspot ⟨file', slot', heq⟩] at hafter
      exact hspot ⟨file, slot, hafter⟩
  · intro spot spot' file slot slot' hspot hspot'
    have hlt := hfits spot file slot hspot
    have hlt' := hfits spot' file slot' hspot'
    rw [offsetAt?_anchor_relative h hspot, offsetAt?_anchor_relative h hspot']
    constructor
    · intro heq
      have heq := Offset.absolute.inj (Option.some.inj heq)
      omega
    · rintro rfl
      rfl

/-- No two locals with slots of one file have one address. -/
def LocalsApart (before after : Function) : Prop :=
  ∀ name name' file slot slot', name ≠ name' →
    before.locals.find? name = some (.relative file slot) →
    before.locals.find? name' = some (.relative file slot') →
    after.locals.find? name ≠ after.locals.find? name'

/-- Every symbol that is kept in a file, be it a parameter or another local, has a slot of the file,
and so has the result; and every address of a window is that of a slot at some spot. -/
structure Furnished (source : Model.Function) (before after : Function) : Prop where
  symbol : ∀ name symbol file, source.symbols.find? name = some symbol →
    fileOf? symbol.storage = some file →
    ∃ slot, before.locals.find? name = some (.relative file slot)
  result : ∀ type, source.returns = some type →
    ∃ slot, before.locals.find? resultName = some (.relative (fileOf type) slot)
  onto : ∀ file address, (after.window file).Holds address → ∃ spot slot,
    before.offsetAt? spot = some (.relative file slot) ∧
    after.offsetAt? spot = some (.absolute address)

/-- The slot of an address of a window, counted down from the top, is below the count. -/
theorem exists_slot_of_holds {w : Flat.Window} {address : Nat} (h : w.Holds address) :
    ∃ slot, slot < w.count ∧ address + slot + 1 = w.base + w.count := by
  obtain ⟨hle, hlt⟩ := h
  exact ⟨w.base + w.count - address - 1, by omega, by omega⟩

end Storage

namespace Stages.Member

variable {model : Model.Program} {c : Compilation} {s : Stages model c} {label : String}
  (m : s.Member label)
include m

/-- What is anchored is the function that the program has then. -/
theorem raised_eq (h : label ∈ c.forest.reachable) :
    s.storage.raised.find? label = some m.raised := by
  obtain ⟨g, k, r, _, hg, _, hr, hgk, hkr, _, _⟩ := s.find?_final h
  rw [m.framed_eq] at hg
  cases hg
  obtain ⟨F, hF, hwindow⟩ := s.window_final h hr
  rw [m.final_eq] at hF
  cases hF
  -- both differ from the frame in the bases only, and the bases are those of the final windows
  obtain ⟨_, _, hraised⟩ := m.raised_same
  obtain ⟨registers, bits, hmoved⟩ := hgk.trans hkr
  have hsame : Storage.SameBut m.raised r := ⟨registers, bits, by rw [hmoved, hraised]⟩
  rw [hr, hsame.eq_of_base fun file => by rw [← hwindow file, (m.window_final file).1]]

theorem unresolved : ∀ op ∈ m.simple.body, op.offset = .unresolved := by
  obtain ⟨_, _, _, _, _, _, hnone⟩ := m.exists_code
  exact hnone

theorem no_locals : m.simple.locals = ∅ :=
  (s.simple_storage m.simple_eq).2.2

/-- **A window becomes the addresses of its slots.** -/
theorem anchored (h : label ∈ c.forest.reachable) :
    Storage.Anchored (total c) m.raised m.final := by
  have hfit := m.framing.slotsFit m.no_locals m.unresolved
  obtain ⟨F, hF, hend⟩ := s.le_total h
  rw [m.final_eq] at hF
  cases hF
  exact Storage.anchored_of_fit m.anchor_eq (hfit.sameBut m.raised_same) hend

/-- No two locals have one slot, so they have no address in common. -/
theorem locals_apart (h : label ∈ c.forest.reachable) :
    Storage.LocalsApart m.raised m.final := by
  intro name name' file slot slot' hne hname hname' hsame
  have hslot := ((m.anchored h).same_iff (.localVar name) (.localVar name') file slot slot' hname
    hname').mp hsame
  subst hslot
  rw [m.raised_locals] at hname hname'
  exact hne (m.pinned.distinct name name' _ hname hname')

/-- **All locals have slots, and all slots are somewhere**, if the name of the result is no
symbol's. -/
theorem furnished (h : label ∈ c.forest.reachable) (hname : m.source.OwnsResultName) :
    Storage.Furnished m.source m.raised m.final := by
  have hanchored := m.anchored h
  refine ⟨?_, ?_, ?_⟩
  · intro name symbol file hfind hfile
    rw [m.raised_locals]
    exact m.framing.local_file hfind hfile hname.keepsResult
  · intro type htype
    rw [m.raised_locals]
    exact m.framing.result_file htype
  · intro file address hholds
    obtain ⟨slot, hlt, haddress⟩ := Storage.exists_slot_of_holds hholds
    rw [hanchored.window_eq file, m.raised_same.count_eq file] at hlt
    obtain ⟨spot, hspot⟩ := m.framing.onto m.no_locals hname hlt
    rw [← m.raised_same.offsetAt?_eq spot] at hspot
    obtain ⟨address', hafter, haddress', _⟩ := hanchored.address spot file slot hspot
    have hsame : address' = address := by omega
    exact ⟨spot, slot, hspot, hsame ▸ hafter⟩

end Stages.Member

/-- **Slots become the addresses of their window, one to one.**  Take a function of the layout of an
accepted build, when all windows are placed and slots have no addresses yet.  Every slot at an op or
a local is below the count of its window.  Anchoring puts addresses for the slots and leaves nothing
else to put: the address of a slot is in the window and below the total of the file, slots of one
file have one address just if they are the same, and no two locals share one.  If no symbol has the
name of the result, every symbol that is kept in a file and the result have slots, and every address
of the window is that of an op or a local. -/
theorem slots_fill_their_windows {model : Model.Program} {c : Compilation}
    (h : build model = .ok c) :
    Nonempty (Stages model c) ∧ ∀ (s : Stages model c), ∀ label ∈ c.layout.order,
      ∃ source before after, model.function label = .ok source ∧
        s.storage.raised.find? label = some before ∧ c.program.find? label = some after ∧
        Storage.anchor before = .ok after ∧
        Storage.Anchored (Stages.total c) before after ∧ Storage.LocalsApart before after ∧
        (source.OwnsResultName → Storage.Furnished source before after) := by
  refine ⟨stages_of_build h, fun s label hlabel => ?_⟩
  rw [s.order_eq] at hlabel
  obtain ⟨m⟩ := s.exists_member hlabel
  exact ⟨m.source, m.raised, m.final, m.source_eq, m.raised_eq hlabel, m.final_eq, m.anchor_eq,
    m.anchored hlabel, m.locals_apart hlabel, m.furnished hlabel⟩

/-- A program with a function that compares its parameters, reads a port into one of them, and
computes with both. -/
def keyedSum : Model.Program :=
  let f : Model.Function :=
    ({ label := "demo.f", returns := some .int } : Model.Function).addParameter "p" .int
      |>.addParameter "q" .int |>.addSymbol "less" .flag
      |>.withBody [.assign (.var "less") none (.compare .lt (.var "p") (.var "q")),
        .assign (.var "p") none (.var "keys"),
        .ret (some (.binary .mul (.binary .add (.var "p") (.var "q")) (.var "q")))]
  let entry : Model.Function :=
    ({ label := "demo.main" } : Model.Function).withBody [.call "f" [.int 1, .int 2]]
  let demo : Model.Module :=
    ((({} : Model.Module).addSymbol "keys" (.portAt 7)).addFunction entry).addFunction f
  { name := "demo", modules := Table.empty.insert "demo" demo }

/-- The function of `keyedSum` has the registers from 2 to 6: its parameters and its result have
different ones, and each of the five is that of an op or a local. -/
theorem slots_fill_their_windows_keyedSum : ∃ c, build keyedSum = .ok c ∧
    ∃ f, c.program.find? "demo.f" = some f ∧ f.window .register = ⟨2, 5⟩ ∧
      f.locals.find? "p" ≠ f.locals.find? "q" ∧
      f.locals.find? "p" ≠ f.locals.find? Storage.resultName ∧
      ∀ address, 2 ≤ address → address < 7 →
        ∃ spot, f.offsetAt? spot = some (.absolute address) := by
  have hlayout : (build keyedSum).toOption.map (fun c =>
      (c.layout.order, (c.program.find? "demo.f").map (·.window .register))) =
        some (["demo.main", "demo.f"], some ⟨2, 5⟩) := by decide +kernel
  obtain ⟨c, hc, hpair⟩ := Option.map_eq_some_iff.mp hlayout
  have hbuild := toOption_eq_some.mp hc
  obtain ⟨horder, hwindow⟩ := Prod.mk.inj hpair
  obtain ⟨⟨s⟩, hall⟩ := slots_fill_their_windows hbuild
  obtain ⟨source, before, after, hsource, _, hafter, _, _, hapart, hfurnished⟩ :=
    hall s "demo.f" (by rw [horder]; decide)
  have hshape : (keyedSum.function "demo.f").toOption.map (fun f =>
      (decide f.OwnsResultName, (f.symbols.find? "p").map (·.storage),
        (f.symbols.find? "q").map (·.storage), f.returns)) =
      some (true, some .register, some .register, some .int) := by decide +kernel
  rw [hsource] at hshape
  have hshape := Option.some.inj hshape
  simp only [Prod.mk.injEq, decide_eq_true_eq] at hshape
  obtain ⟨hname, hp, hq, hreturns⟩ := hshape
  obtain ⟨p, hp, hpfile⟩ := Option.map_eq_some_iff.mp hp
  obtain ⟨q, hq, hqfile⟩ := Option.map_eq_some_iff.mp hq
  rw [hafter] at hwindow
  have hwindow : after.window .register = ⟨2, 5⟩ := Option.some.inj hwindow
  have hfurnished := hfurnished hname
  obtain ⟨_, hpslot⟩ := hfurnished.symbol "p" p .register hp (by rw [hpfile]; rfl)
  obtain ⟨_, hqslot⟩ := hfurnished.symbol "q" q .register hq (by rw [hqfile]; rfl)
  obtain ⟨_, hresult⟩ := hfurnished.result .int hreturns
  refine ⟨c, hbuild, after, hafter, hwindow,
    hapart "p" "q" .register _ _ (by decide) hpslot hqslot,
    hapart "p" Storage.resultName .register _ _ (by decide) hpslot hresult,
    fun address hle hlt => ?_⟩
  obtain ⟨spot, _, _, hspot⟩ :=
    hfurnished.onto .register address (by rw [hwindow]; exact ⟨hle, hlt⟩)
  exact ⟨spot, hspot⟩

end Stackless
