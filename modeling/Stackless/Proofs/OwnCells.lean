import Stackless.Proofs.GlobalAddresses

/-!
# Every variable has cells of its own

Register variables and bit variables are handed out from cursors, one behind the other, below the
windows of all functions.  So the address of such a variable is the sum of what the variables
before it take (`Stages.cell_address`), and nobody else is there.

Two kinds of variables take nothing from a cursor.  A bit with a fixed offset stands where the
model says; nothing keeps it away from scratch, from the bits that were handed out or from the
windows, all of which are below the total.  And a register variable may declare that it has no
registers.

`OwnCells` is what is left to say, and `globals_own_their_cells` says it of every accepted build
with labels apart.  `fixed_bit_shared` is a program with a fixed bit on a bit that is handed out.
-/

namespace Stackless

open Flat (File)
open Model (Symbol)
open Storage (placeAll placedGlobals cellsTaken scratch behindGlobals)

namespace Storage

/-- How many cells of a file globals take from the cursor. -/
def takenBy (file : File) (gs : List (String × Symbol)) : Nat :=
  (gs.map fun g => cellsTaken g.2 file).sum

theorem storage_of_taken {symbol : Symbol} {file : File} (h : 0 < cellsTaken symbol file) :
    symbol.storage ≠ .rom := by
  intro hrom
  cases file with
  | register => simp [cellsTaken, hrom] at h
  | bit => simp [cellsTaken, hrom] at h

/-- Of two members of a row one comes first. -/
theorem exists_between {α : Type} {l : List α} {a b : α} (ha : a ∈ l) (hb : b ∈ l) (hne : a ≠ b) :
    ∃ xs ys zs, l = xs ++ a :: (ys ++ b :: zs) ∨ l = xs ++ b :: (ys ++ a :: zs) := by
  obtain ⟨before, after, rfl⟩ := List.append_of_mem ha
  rcases List.mem_append.mp hb with hbefore | hafter
  · obtain ⟨xs, ys, rfl⟩ := List.append_of_mem hbefore
    exact ⟨xs, ys, after, .inr (by simp)⟩
  · obtain ⟨ys, zs, rfl⟩ := List.append_of_mem ((List.mem_cons.mp hafter).resolve_left (Ne.symm hne))
    exact ⟨before, ys, zs, .inl rfl⟩

end Storage

namespace Stages

open Storage (takenBy)

variable {model : Model.Program} {c : Compilation} (s : Stages model c) (h : model.LabelsApart)
include s h

/-- **The address of a variable that takes cells** is behind those before it: globals are handed
their cells in the order in which they are placed, from scratch on. -/
theorem cell_address {before after : List (String × Symbol)} {g : String × Symbol} {file : File}
    (hsplit : placedGlobals model c.forest = before ++ g :: after) (htaken : 0 < cellsTaken g.2 file) :
    c.layout.addresses.find? g.1 = some (scratch file + takenBy file before) := by
  obtain ⟨mid, hmid, hfind⟩ := s.variable_address h hsplit (Storage.storage_of_taken htaken)
  rw [hfind, Storage.given_of_taken htaken, Storage.placeAll_mark file hmid]
  cases file with
  | register => rfl
  | bit => rfl

/-- The cells of a variable end behind the globals at the latest. -/
theorem exists_cells {g : String × Symbol} {file : File} (hg : g ∈ Storage.globals model)
    (htaken : 0 < cellsTaken g.2 file) : ∃ address, c.layout.addresses.find? g.1 = some address ∧
      scratch file ≤ address ∧ address + cellsTaken g.2 file ≤ behindGlobals model file := by
  have hplaced := (Storage.placedGlobals_perm model c.forest).mem_iff.mpr hg
  obtain ⟨before, after, hsplit⟩ := List.append_of_mem hplaced
  refine ⟨_, s.cell_address h hsplit htaken, Nat.le_add_right _ _, ?_⟩
  have hsum := ((Storage.placedGlobals_perm model c.forest).map fun g => cellsTaken g.2 file).sum_nat
  rw [hsplit] at hsum
  simp only [behindGlobals, takenBy, ← hsum, List.map_append, List.map_cons, List.sum_append,
    List.sum_cons]
  omega

/-- **Two variables that take cells** have different ones. -/
theorem cells_apart {g g' : String × Symbol} {file : File} (hg : g ∈ Storage.globals model)
    (hg' : g' ∈ Storage.globals model) (hne : g ≠ g') (htaken : 0 < cellsTaken g.2 file)
    (htaken' : 0 < cellsTaken g'.2 file) : ∃ address address',
      c.layout.addresses.find? g.1 = some address ∧
      c.layout.addresses.find? g'.1 = some address' ∧
      (address + cellsTaken g.2 file ≤ address' ∨ address' + cellsTaken g'.2 file ≤ address) := by
  have hplaced := (Storage.placedGlobals_perm model c.forest).mem_iff.mpr hg
  have hplaced' := (Storage.placedGlobals_perm model c.forest).mem_iff.mpr hg'
  obtain ⟨xs, ys, zs, hsplit | hsplit⟩ := Storage.exists_between hplaced hplaced' hne
  · have hsplit' : placedGlobals model c.forest = (xs ++ g :: ys) ++ g' :: zs := by
      rw [hsplit, List.append_assoc, List.cons_append]
    refine ⟨_, _, s.cell_address h hsplit htaken, s.cell_address h hsplit' htaken', .inl ?_⟩
    simp only [takenBy, List.map_append, List.map_cons, List.sum_append, List.sum_cons]
    omega
  · have hsplit' : placedGlobals model c.forest = (xs ++ g' :: ys) ++ g :: zs := by
      rw [hsplit, List.append_assoc, List.cons_append]
    refine ⟨_, _, s.cell_address h hsplit' htaken, s.cell_address h hsplit htaken', .inr ?_⟩
    simp only [takenBy, List.map_append, List.map_cons, List.sum_append, List.sum_cons]
    omega

/-- A bit or a port with a fixed offset stands there. -/
theorem fixed_address {g : String × Symbol} {fixed : UInt32} (hg : g ∈ Storage.globals model)
    (hkind : g.2.storage = .bit ∨ g.2.storage = .port) (hfixed : g.2.offset = some fixed) :
    c.layout.addresses.find? g.1 = some fixed.toNat := by
  have hplaced := (Storage.placedGlobals_perm model c.forest).mem_iff.mpr hg
  obtain ⟨before, after, hsplit⟩ := List.append_of_mem hplaced
  rcases hkind with hkind | hkind
  all_goals
    obtain ⟨mid, _, hfind⟩ := s.variable_address h hsplit (by rw [hkind]; simp)
    rw [hfind]
    simp only [Storage.Cursors.given, hkind, hfixed]

end Stages

/-- A cell of a file that is in the window of no function of the layout. -/
def Compilation.Outside (c : Compilation) (file : File) (cell : Nat) : Prop :=
  ∀ label ∈ c.layout.order, ∃ f, c.program.find? label = some f ∧ ¬(f.window file).Holds cell

/-- What globals keep for themselves, with what the hypotheses on fixed bits and empty variables
leave: cells that are handed out are disjoint from one another, from scratch and from all
windows. -/
structure Compilation.OwnCells (model : Model.Program) (c : Compilation) : Prop where
  /-- Two register variables have different registers. -/
  registers_apart : ∀ g ∈ Storage.globals model, ∀ g' ∈ Storage.globals model, g ≠ g' →
    g.2.storage = .register → g'.2.storage = .register →
    1 ≤ g.2.count.toNat → 1 ≤ g'.2.count.toNat → ∃ address address',
      c.layout.addresses.find? g.1 = some address ∧
      c.layout.addresses.find? g'.1 = some address' ∧
      (address + g.2.count.toNat ≤ address' ∨ address' + g'.2.count.toNat ≤ address)
  /-- A bit that is handed out is no other variable, unless that is fixed among the bits that
  are handed out. -/
  bits_apart : ∀ g ∈ Storage.globals model, ∀ g' ∈ Storage.globals model, g ≠ g' →
    g.2.storage = .bit → g'.2.storage = .bit → g.2.offset = none →
    g'.2.offset.all (fun fixed => fixed.toNat < 1 ∨ behindGlobals model .bit ≤ fixed.toNat) →
    ∃ address address', c.layout.addresses.find? g.1 = some address ∧
      c.layout.addresses.find? g'.1 = some address' ∧ address ≠ address'
  /-- No register of a variable is scratch or in a window. -/
  register_free : ∀ g ∈ Storage.globals model, g.2.storage = .register → 1 ≤ g.2.count.toNat →
    ∃ address, c.layout.addresses.find? g.1 = some address ∧
      ∀ cell, address ≤ cell → cell < address + g.2.count.toNat →
        2 ≤ cell ∧ c.Outside .register cell
  /-- A bit that is handed out is not scratch, and in no window. -/
  bit_free : ∀ g ∈ Storage.globals model, g.2.storage = .bit → g.2.offset = none →
    ∃ address, c.layout.addresses.find? g.1 = some address ∧
      1 ≤ address ∧ address < behindGlobals model .bit ∧ c.Outside .bit address
  /-- A fixed bit is where it is fixed, and in a window only between the bits that are handed out
  and the total. -/
  fixed_free : ∀ g ∈ Storage.globals model, g.2.storage = .bit → ∀ fixed, g.2.offset = some fixed →
    c.layout.addresses.find? g.1 = some fixed.toNat ∧
      (fixed.toNat < behindGlobals model .bit ∨ c.layout.bits ≤ fixed.toNat →
        c.Outside .bit fixed.toNat)

namespace Stages

variable {model : Model.Program} {c : Compilation} (s : Stages model c)
include s

/-- The cells below the windows and above them are outside. -/
theorem outside {file : File} {cell : Nat}
    (h : cell < behindGlobals model file ∨ total c file ≤ cell) : c.Outside file cell := by
  intro label hlabel
  rw [s.order_eq] at hlabel
  obtain ⟨f, hf, hfree⟩ := s.free_le hlabel
  obtain ⟨f', hf', hend⟩ := s.le_total hlabel
  rw [hf] at hf'
  cases hf'
  refine ⟨f, hf, fun hholds => ?_⟩
  have hbase := hfree file
  rw [Storage.cursors_eq_behindGlobals s.storage.cursors_eq file] at hbase
  have htop := hend file
  have hle := hholds.1
  have hlt := hholds.2
  rcases h with hbelow | habove
  · omega
  · omega

end Stages

/-- A register variable takes the registers that it declares. -/
theorem Storage.cellsTaken_register {symbol : Symbol} (h : symbol.storage = .register) :
    cellsTaken symbol .register = symbol.count.toNat := by
  simp [cellsTaken, h]

/-- A bit without a fixed offset takes one bit. -/
theorem Storage.cellsTaken_bit {symbol : Symbol} (h : symbol.storage = .bit)
    (hnone : symbol.offset = none) : cellsTaken symbol .bit = 1 := by
  simp [cellsTaken, h, hnone]

/-- A bit without a fixed offset is behind scratch and before all windows. -/
theorem Stages.handed_bit {model : Model.Program} {c : Compilation} (s : Stages model c)
    (h : model.LabelsApart) {g : String × Symbol} (hg : g ∈ Storage.globals model)
    (hbit : g.2.storage = .bit) (hnone : g.2.offset = none) :
    ∃ address, c.layout.addresses.find? g.1 = some address ∧ 1 ≤ address ∧
      address < behindGlobals model .bit := by
  have htaken := Storage.cellsTaken_bit hbit hnone
  obtain ⟨address, haddress, hle, hlt⟩ := s.exists_cells h hg (by rw [htaken]; exact Nat.one_pos)
  rw [htaken] at hlt
  exact ⟨address, haddress, hle, hlt⟩

/-- **Globals own their cells.**  In an accepted build of a program whose globals have labels of
their own, variables that take cells from a cursor have cells that no other variable has from one,
that are not scratch, and that are in no window.  A fixed bit is where it is fixed; it meets the
bits that were handed out, or the windows, only below the total of the bits. -/
theorem globals_own_their_cells {model : Model.Program} {c : Compilation} (h : build model = .ok c)
    (hlabels : model.LabelsApart) : c.OwnCells model := by
  obtain ⟨s⟩ := stages_of_build h
  refine ⟨?_, ?_, ?_, ?_, ?_⟩
  · intro g hg g' hg' hne hstorage hstorage' hcount hcount'
    rw [← Storage.cellsTaken_register hstorage] at hcount ⊢
    rw [← Storage.cellsTaken_register hstorage'] at hcount' ⊢
    exact s.cells_apart hlabels hg hg' hne hcount hcount'
  · intro g hg g' hg' hne hbit hbit' hnone hfixed
    have htaken := Storage.cellsTaken_bit hbit hnone
    cases hoffset : g'.2.offset with
    | none =>
        have htaken' := Storage.cellsTaken_bit hbit' hoffset
        have hpos : 0 < cellsTaken g.2 .bit := by omega
        have hpos' : 0 < cellsTaken g'.2 .bit := by omega
        obtain ⟨address, address', haddress, haddress', hapart⟩ :=
          s.cells_apart hlabels hg hg' hne hpos hpos'
        rw [htaken, htaken'] at hapart
        exact ⟨address, address', haddress, haddress', by omega⟩
    | some fixed =>
        obtain ⟨address, haddress, hle, hlt⟩ := s.handed_bit hlabels hg hbit hnone
        have hrange : fixed.toNat < 1 ∨ behindGlobals model .bit ≤ fixed.toNat := by
          simpa [hoffset] using hfixed
        exact ⟨address, fixed.toNat, haddress, s.fixed_address hlabels hg' (.inl hbit') hoffset, by omega⟩
  · intro g hg hstorage hcount
    rw [← Storage.cellsTaken_register hstorage] at hcount ⊢
    obtain ⟨address, haddress, hle, hlt⟩ := s.exists_cells hlabels hg hcount
    refine ⟨address, haddress, fun cell hcell hend => ⟨Nat.le_trans hle hcell, ?_⟩⟩
    exact s.outside (.inl (by omega))
  · intro g hg hbit hnone
    obtain ⟨address, haddress, hle, hlt⟩ := s.handed_bit hlabels hg hbit hnone
    exact ⟨address, haddress, hle, hlt, s.outside (.inl hlt)⟩
  · intro g hg hbit fixed hfixed
    exact ⟨s.fixed_address hlabels hg (.inl hbit) hfixed, s.outside⟩

/-- A program with two flags, one of them at a fixed bit, and a function that sets one from the
other. -/
def lampAt (fixed : UInt32) : Model.Program :=
  let entry : Model.Function :=
    ({ label := "demo.main" } : Model.Function).withBody
      [.assign (.var "demo.ready") none (.bool false), .assign (.var "demo.lamp") none (.bool true)]
  let demo : Model.Module :=
    ((({} : Model.Module).addSymbol "lamp" (.flagAt fixed)).addSymbol "ready" .flag).addFunction entry
  { name := "demo", modules := Table.empty.insert "demo" demo }

/-- A lamp far above all bits of the program is nobody else's. -/
theorem globals_own_their_cells_lampAt : ∃ c, build (lampAt 40) = .ok c ∧ c.layout.bits ≤ 40 ∧
    c.OwnCells (lampAt 40) ∧ c.Outside .bit 40 := by
  have hlayout : (build (lampAt 40)).toOption.map (fun c => decide (c.layout.bits ≤ 40)) =
      some true := by decide +kernel
  have hlabels : (lampAt 40).LabelsApart := by decide +kernel
  have hlamp : ("demo.lamp", Symbol.flagAt 40) ∈ Storage.globals (lampAt 40) := by decide +kernel
  obtain ⟨c, hc, hbits⟩ := Option.map_eq_some_iff.mp hlayout
  have hbuild := toOption_eq_some.mp hc
  have htotal := of_decide_eq_true hbits
  have hown := globals_own_their_cells hbuild hlabels
  exact ⟨c, hbuild, htotal, hown, (hown.fixed_free _ hlamp rfl 40 rfl).2 (.inr htotal)⟩

/-- **A fixed bit can be another variable's.**  With the lamp at bit 1 both flags are there. -/
theorem fixed_bit_shared : (lampAt 1).LabelsApart ∧
    ("demo.lamp", Symbol.flagAt 1) ∈ Storage.globals (lampAt 1) ∧
    ("demo.ready", Symbol.flag) ∈ Storage.globals (lampAt 1) ∧
    ∃ c, build (lampAt 1) = .ok c ∧ c.layout.addresses.find? "demo.lamp" = some 1 ∧
      c.layout.addresses.find? "demo.ready" = some 1 := by
  have hlayout : (build (lampAt 1)).toOption.map (fun c =>
      (c.layout.addresses.find? "demo.lamp", c.layout.addresses.find? "demo.ready")) =
        some (some 1, some 1) := by decide +kernel
  obtain ⟨c, hc, haddresses⟩ := Option.map_eq_some_iff.mp hlayout
  obtain ⟨hlamp, hready⟩ := Prod.mk.inj haddresses
  exact ⟨by decide +kernel, by decide +kernel, by decide +kernel, c, toOption_eq_some.mp hc, hlamp,
    hready⟩

end Stackless
