import Stackless.Proofs.OwnCells
import Stackless.Proofs.Overflows

/-!
# How the globals fill the address spaces

Each kind of storage has a cursor of its own, and a global that takes cells takes the next ones.
So the globals of a kind lie side by side: every address between the start of the cursor and its
end belongs to one of them and to no other.

* `Tiles` — globals fill a range of addresses without gap or overlap;
* `tiles_of_stacked` — they do if each stands where those before it end, by induction along the
  row;
* `tiles_of_kind` — the row may hold globals of other kinds, which take nothing;
* `Stages.Tiled` — what this says about an accepted build, and which labels have an address;
* `globals_tile_their_spaces` — every accepted build with labels apart is tiled.
-/

namespace Stackless

open Model (Symbol)
open Storage (globals tables placedGlobals placeAll declared wordsTaken ramWords cellsTaken takenBy)

namespace Storage

/-- A global of a size is at a cell. -/
def Occupies (addresses : Table Nat) (size : Symbol → Nat) (g : String × Symbol) (cell : Nat) :
    Prop :=
  ∃ address, addresses.find? g.1 = some address ∧ address ≤ cell ∧ cell < address + size g.2

/-- Globals fill the addresses from `lo` up to `hi`: each has an address, no two share a cell, and
the cells that they take together are those of the range. -/
structure Tiles (addresses : Table Nat) (size : Symbol → Nat) (gs : List (String × Symbol))
    (lo hi : Nat) : Prop where
  placed : ∀ g ∈ gs, ∃ address, addresses.find? g.1 = some address
  /-- No cell belongs to two of them. -/
  apart : ∀ g ∈ gs, ∀ g' ∈ gs, ∀ cell, Occupies addresses size g cell →
    Occupies addresses size g' cell → g = g'
  /-- Their cells are those of the range. -/
  covers : ∀ cell, (∃ g ∈ gs, Occupies addresses size g cell) ↔ lo ≤ cell ∧ cell < hi

section Tiles

variable {addresses : Table Nat} {size : Symbol → Nat} {gs gs' : List (String × Symbol)}
  {lo hi : Nat}

/-- The order of the globals does not matter. -/
theorem Tiles.perm (h : Tiles addresses size gs lo hi) (hperm : gs.Perm gs') :
    Tiles addresses size gs' lo hi where
  placed g hg := h.placed g (hperm.mem_iff.mpr hg)
  apart g hg g' hg' := h.apart g (hperm.mem_iff.mpr hg) g' (hperm.mem_iff.mpr hg')
  covers cell := by
    rw [← h.covers cell]
    exact exists_congr fun g => and_congr_left fun _ => hperm.mem_iff.symm

theorem Tiles.nil (lo : Nat) : Tiles addresses size [] lo lo where
  placed := by simp
  apart := by simp
  covers cell := by
    simp only [List.not_mem_nil, false_and, exists_false, false_iff]
    omega

/-- One global stands at the start, and the others fill what is behind it. -/
theorem Tiles.cons {g : String × Symbol} (hg : addresses.find? g.1 = some lo)
    (h : Tiles addresses size gs (lo + size g.2) hi) (hle : lo + size g.2 ≤ hi) :
    Tiles addresses size (g :: gs) lo hi := by
  have hfirst : ∀ cell, Occupies addresses size g cell ↔ lo ≤ cell ∧ cell < lo + size g.2 := by
    intro cell
    simp only [Occupies, hg, Option.some.injEq, exists_eq_left']
  have hbehind : ∀ g' ∈ gs, ∀ cell, Occupies addresses size g' cell → lo + size g.2 ≤ cell :=
    fun g' hg' cell hcell => ((h.covers cell).mp ⟨g', hg', hcell⟩).1
  refine ⟨fun g' hg' => ?_, fun g' hg' g'' hg'' cell hcell hcell' => ?_, fun cell => ?_⟩
  · rcases List.mem_cons.mp hg' with rfl | hg'
    · exact ⟨lo, hg⟩
    · exact h.placed g' hg'
  · rcases List.mem_cons.mp hg' with rfl | hg' <;> rcases List.mem_cons.mp hg'' with rfl | hg''
    · rfl
    · have hle := hbehind g'' hg'' cell hcell'
      have hlt := (hfirst cell).mp hcell
      omega
    · have hle := hbehind _ ‹_› cell hcell
      have hlt := (hfirst cell).mp hcell'
      omega
    · exact h.apart g' hg' g'' hg'' cell hcell hcell'
  · rw [List.exists_mem_cons_iff, hfirst, h.covers cell]
    omega

/-- **Globals that stand one behind the other** fill a range, which ends at the sum of their sizes.
Globals of size zero take no cell of it. -/
theorem tiles_of_stacked (h : ∀ before g after, gs = before ++ g :: after →
      addresses.find? g.1 = some (lo + (before.map fun g => size g.2).sum)) :
    Tiles addresses size gs lo (lo + (gs.map fun g => size g.2).sum) := by
  induction gs generalizing lo with
  | nil => exact .nil lo
  | cons g gs ih =>
      rw [List.map_cons, List.sum_cons, ← Nat.add_assoc]
      refine .cons (h [] g gs rfl) (ih fun before g' after hsplit => ?_) (Nat.le_add_right _ _)
      rw [h (g :: before) g' after (by rw [hsplit, List.cons_append]), List.map_cons,
        List.sum_cons, Nat.add_assoc]

variable {kind : Symbol → Bool} {takes : Symbol → Nat}

/-- What a row takes, those of a kind take. -/
theorem sum_filter_kind (htakes : ∀ symbol, takes symbol = if kind symbol then size symbol else 0)
    (gs : List (String × Symbol)) :
    ((gs.filter fun g => kind g.2).map fun g => size g.2).sum =
      (gs.map fun g => takes g.2).sum := by
  induction gs with
  | nil => rfl
  | cons g gs ih =>
      rw [List.map_cons, List.sum_cons, htakes, ← ih]
      cases hkind : kind g.2 with
      | true =>
          rw [List.filter_cons, if_pos hkind, List.map_cons, List.sum_cons, if_pos rfl]
      | false =>
          rw [List.filter_cons, if_neg (by simp [hkind]), if_neg Bool.false_ne_true, Nat.zero_add]

/-- **The globals of a kind fill a range** if each stands behind what the row takes before it, and
only they take anything. -/
theorem tiles_of_kind (htakes : ∀ symbol, takes symbol = if kind symbol then size symbol else 0)
    (h : ∀ before g after, gs = before ++ g :: after → kind g.2 = true →
      addresses.find? g.1 = some (lo + (before.map fun g => takes g.2).sum)) :
    Tiles addresses size (gs.filter fun g => kind g.2) lo
      (lo + (gs.map fun g => takes g.2).sum) := by
  rw [← sum_filter_kind htakes]
  refine tiles_of_stacked fun before g after hsplit => ?_
  obtain ⟨front, rest, hgs, rfl, hrest⟩ := List.filter_eq_append_iff.mp hsplit
  obtain ⟨others, last, rfl, hothers, hg, _⟩ := List.filter_eq_cons_iff.mp hrest
  rw [h (front ++ others) g last (by rw [hgs, List.append_assoc]) hg, ← sum_filter_kind htakes,
    List.filter_append, List.filter_eq_nil_iff.mpr hothers, List.append_nil]

/-- Globals are tiled in whatever order they are placed. -/
theorem tiles_globals (kind : Symbol → Bool) (takes : Symbol → Nat) {model : Model.Program}
    {forest : Calls.Forest}
    (htakes : ∀ symbol, takes symbol = if kind symbol then size symbol else 0)
    (h : ∀ before g after, placedGlobals model forest = before ++ g :: after → kind g.2 = true →
      addresses.find? g.1 = some (lo + (before.map fun g => takes g.2).sum)) :
    Tiles addresses size ((globals model).filter fun g => kind g.2) lo
      (lo + ((placedGlobals model forest).map fun g => takes g.2).sum) :=
  (tiles_of_kind htakes h).perm ((placedGlobals_perm model forest).filter _)

end Tiles

/-- A capacity is what the bus reaches, and at most the largest word. -/
theorem capacity_eq_min (bits : UInt32) :
    capacity bits = min (Nat.pow 2 bits.toNat) (wordLimit - 1) := by
  unfold capacity
  split
  · have hle : Nat.pow 2 bits.toNat ≤ Nat.pow 2 31 :=
      Nat.pow_le_pow_right (by decide) (by omega)
    exact (Nat.min_eq_left (Nat.le_trans hle (by decide))).symm
  · have hle : Nat.pow 2 32 ≤ Nat.pow 2 bits.toNat :=
      Nat.pow_le_pow_right (by decide) (by omega)
    exact (Nat.min_eq_right (Nat.le_trans (by decide) hle)).symm

/-- A global that was placed can be placed. -/
theorem placeable_of_place {c d : Cursors} {label : String} {symbol : Symbol}
    (h : c.place label symbol = .ok d) : symbol.Placeable := by
  unfold Cursors.place at h
  split at h
  · cases h
  · rename_i harray
    refine ⟨harray, ?_⟩
    rintro ⟨hport, hnone⟩
    rw [hport, hnone] at h
    cases h

/-- Globals that were placed can be placed. -/
theorem placeable_of_placeAll {gs : List (String × Symbol)} {start c : Cursors}
    (h : placeAll start gs = .ok c) : ∀ g ∈ gs, g.2.Placeable := by
  induction gs generalizing start with
  | nil => simp
  | cons g gs ih =>
      obtain ⟨next, hnext, hrest⟩ := bind_eq_ok.mp h
      intro g' hg'
      rcases List.mem_cons.mp hg' with rfl | hg'
      · exact placeable_of_place hnext
      · exact ih hrest g' hg'

end Storage

namespace Stages

variable {model : Model.Program} {c : Compilation} (s : Stages model c)

/-- The globals of an accepted build fill their address spaces without holes and without overlaps.
Fixed bits and ports stand where the model puts them, and no label has an address but those listed
in the end. -/
structure Tiled : Prop where
  /-- The variables in the RAM fill it from address 0. -/
  ram : Storage.Tiles c.layout.addresses (·.count.toNat)
    ((globals model).filter fun g => g.2.storage = .ram) 0 c.layout.ram
  ram_le : c.layout.ram ≤ min (Nat.pow 2 model.config.ramBits.toNat) (wordLimit - 1)
  /-- The arrays of constants fill the ROM from address 0. -/
  tables : Storage.Tiles c.layout.addresses (·.count.toNat) (tables model) 0 c.layout.constants
  tables_le : c.layout.constants ≤ min (Nat.pow 2 model.config.constBits.toNat) (wordLimit - 1)
  /-- The register variables fill the registers from scratch up to the windows. -/
  registers : Storage.Tiles c.layout.addresses (·.count.toNat)
    ((globals model).filter fun g => g.2.storage = .register) 2 s.storage.free.registers
  /-- The bits that are not fixed fill those from scratch up to the windows, one bit each. -/
  bits : Storage.Tiles c.layout.addresses (fun _ => 1)
    ((globals model).filter fun g => g.2.storage = .bit ∧ g.2.offset = none) 1 s.storage.free.bits
  /-- A bit that is fixed is where it is fixed. -/
  fixed_bit : ∀ g ∈ globals model, g.2.storage = .bit → ∀ fixed, g.2.offset = some fixed →
    c.layout.addresses.find? g.1 = some fixed.toNat
  /-- All ports are fixed, and where they are fixed. -/
  port : ∀ g ∈ globals model, g.2.storage = .port →
    ∃ fixed, g.2.offset = some fixed ∧ c.layout.addresses.find? g.1 = some fixed.toNat
  /-- The labels with an address are those of the globals, without the constants that are no
  array. -/
  labels : ∀ label, (∃ address, c.layout.addresses.find? label = some address) ↔
    ∃ symbol, (label, symbol) ∈ globals model ∧
      ¬(symbol.storage = .rom ∧ symbol.isArray = false)

variable (h : model.LabelsApart)
include s h

/-- A variable in the RAM stands behind those before it. -/
theorem ram_address {before after : List (String × Symbol)} {g : String × Symbol}
    (hsplit : placedGlobals model c.forest = before ++ g :: after) (hram : g.2.storage = .ram) :
    c.layout.addresses.find? g.1 = some (ramWords before) := by
  obtain ⟨mid, hmid, hfind⟩ := s.variable_address h hsplit (by rw [hram]; decide)
  have hmoved := (Storage.inRange_placeAll (Storage.inRange_start _) hmid).2
  rw [Nat.zero_add] at hmoved
  simp only [hfind, Storage.Cursors.given, hram, hmoved]

/-- A register variable stands behind those before it, also one without registers. -/
theorem register_address {before after : List (String × Symbol)} {g : String × Symbol}
    (hsplit : placedGlobals model c.forest = before ++ g :: after)
    (hregister : g.2.storage = .register) :
    c.layout.addresses.find? g.1 = some (2 + takenBy .register before) := by
  obtain ⟨mid, hmid, hfind⟩ := s.variable_address h hsplit (by rw [hregister]; decide)
  have hmoved := Storage.placeAll_mark .register hmid
  simp only [hfind, Storage.Cursors.given, hregister]
  exact congrArg some hmoved

/-- Every global has an address, unless it is a constant that is no array. -/
theorem exists_address {g : String × Symbol} (hg : g ∈ globals model)
    (hplaced : ¬(g.2.storage = .rom ∧ g.2.isArray = false)) :
    ∃ address, c.layout.addresses.find? g.1 = some address := by
  by_cases hrom : g.2.storage = .rom
  · have harray : g.2.isArray = true := by
      rw [← Bool.not_eq_false]
      exact fun hscalar => hplaced ⟨hrom, hscalar⟩
    have htable : g ∈ tables model := List.mem_filter.mpr
      ⟨hg, by rw [Storage.isConstantArray, hrom, harray]; rfl⟩
    obtain ⟨before, after, hsplit⟩ := List.append_of_mem htable
    exact ⟨_, s.table_address h hsplit⟩
  · have hvariable := (Storage.placedGlobals_perm model c.forest).mem_iff.mpr hg
    obtain ⟨before, after, hsplit⟩ := List.append_of_mem hvariable
    obtain ⟨mid, _, hfind⟩ := s.variable_address h hsplit hrom
    exact ⟨_, hfind⟩

omit h in
/-- A label with an address is the label of a variable or of an array of constants. -/
theorem exists_of_address {label : String} {address : Nat}
    (hfind : c.layout.addresses.find? label = some address) :
    ∃ symbol, (label, symbol) ∈ globals model ∧
      ¬(symbol.storage = .rom ∧ symbol.isArray = false) := by
  by_cases htable : label ∈ (tables model).map Prod.fst
  · obtain ⟨⟨_, symbol⟩, hg, rfl⟩ := List.mem_map.mp htable
    obtain ⟨hglobal, harray⟩ := List.mem_filter.mp hg
    rw [Storage.isConstantArray, Bool.and_eq_true] at harray
    exact ⟨symbol, hglobal, fun hscalar => Bool.eq_false_iff.mp hscalar.2 harray.2⟩
  by_cases hvariable : ∃ g ∈ placedGlobals model c.forest, g.1 = label ∧ g.2.storage ≠ .rom
  · obtain ⟨⟨_, symbol⟩, hg, rfl, hstorage⟩ := hvariable
    exact ⟨symbol, Storage.mem_globals_of_placed hg, fun hscalar => hstorage hscalar.1⟩
  have hconstant : ∀ g ∈ placedGlobals model c.forest, g.1 = label → g.2.storage = .rom := by
    intro g hg heq
    by_contra hstorage
    exact hvariable ⟨g, hg, heq, hstorage⟩
  have hcursors := Storage.find?_placeAll_of_not
    (Storage.placeAll_of_placeVariables s.storage.cursors_eq) hconstant
  have hconstants := Storage.find?_placeTables_of_not
    (Storage.placeTables_of_placeConstants s.storage.constants_eq) htable
  rw [s.storage.layout_eq] at hfind
  have hempty : s.storage.cursors.addresses.find? label = none := hcursors.trans hconstants
  rw [hempty] at hfind
  cases hfind

omit h in
/-- The RAM is filled as far as the variables take words. -/
theorem ram_eq : c.layout.ram = ramWords (placedGlobals model c.forest) := by
  have hmoved := (Storage.inRange_placeAll (Storage.inRange_start _)
    (Storage.placeAll_of_placeVariables s.storage.cursors_eq)).2
  rw [Nat.zero_add] at hmoved
  rw [s.storage.layout_eq]
  exact hmoved

omit h in
theorem exists_offset {g : String × Symbol} (hg : g ∈ globals model)
    (hport : g.2.storage = .port) : ∃ fixed, g.2.offset = some fixed := by
  have hplaced := (Storage.placedGlobals_perm model c.forest).mem_iff.mpr hg
  have hplaceable := Storage.placeable_of_placeAll
    (Storage.placeAll_of_placeVariables s.storage.cursors_eq) g hplaced
  exact Option.ne_none_iff_exists'.mp fun hnone => hplaceable.2 ⟨hport, hnone⟩

/-- **An accepted build is tiled**, if its labels are apart. -/
theorem tiled : s.Tiled where
  ram := by
    rw [s.ram_eq, ← Nat.zero_add (ramWords _)]
    refine Storage.tiles_globals (fun symbol => symbol.storage = .ram) wordsTaken
      (fun symbol => ?_) fun before g after hsplit hkind => ?_
    · simp [wordsTaken]
    · rw [s.ram_address h hsplit (of_decide_eq_true hkind), Nat.zero_add]
      rfl
  ram_le := by
    rw [s.ram_eq, ← Storage.capacity_eq_min]
    exact Storage.ramWords_le_of_placeVariables s.storage.cursors_eq
  tables := by
    rw [s.constants_eq, ← Nat.zero_add (declared _)]
    refine Storage.tiles_of_stacked fun before g after hsplit => ?_
    rw [s.table_address h hsplit, Nat.zero_add]
    rfl
  tables_le := by
    rw [s.constants_eq, ← Storage.capacity_eq_min]
    exact Storage.exists_placeConstants_iff.mp ⟨_, s.storage.constants_eq⟩
  registers := by
    rw [show s.storage.free.registers = 2 + takenBy .register (placedGlobals model c.forest) from
      Storage.placeAll_mark .register (Storage.placeAll_of_placeVariables s.storage.cursors_eq)]
    refine Storage.tiles_globals (fun symbol => symbol.storage = .register)
      (cellsTaken · .register) (fun symbol => ?_) fun before g after hsplit hkind => ?_
    · simp [cellsTaken]
    · exact s.register_address h hsplit (of_decide_eq_true hkind)
  bits := by
    rw [show s.storage.free.bits = 1 + takenBy .bit (placedGlobals model c.forest) from
      Storage.placeAll_mark .bit (Storage.placeAll_of_placeVariables s.storage.cursors_eq)]
    refine Storage.tiles_globals (fun symbol => symbol.storage = .bit ∧ symbol.offset = none)
      (cellsTaken · .bit) (fun symbol => ?_) fun before g after hsplit hkind => ?_
    · simp [cellsTaken]
    · obtain ⟨hbit, hnone⟩ := of_decide_eq_true hkind
      refine s.cell_address h hsplit (?_ : 0 < cellsTaken g.2 .bit)
      rw [Storage.cellsTaken_bit hbit hnone]
      decide
  fixed_bit g hg hbit fixed hfixed := s.fixed_address h hg (.inl hbit) hfixed
  port g hg hport := by
    obtain ⟨fixed, hfixed⟩ := s.exists_offset hg hport
    exact ⟨fixed, hfixed, s.fixed_address h hg (.inr hport) hfixed⟩
  labels label := by
    constructor
    · rintro ⟨address, hfind⟩
      exact s.exists_of_address hfind
    · rintro ⟨symbol, hg, hplaced⟩
      exact s.exists_address h hg hplaced

end Stages

/-- **Global placement tiles the address spaces.**  In an accepted build of a program whose globals
have labels of their own, the variables in the RAM fill it from address 0 up to the words that the
layout counts, which the address bus reaches; the arrays of constants fill the ROM in the same
way; and the register variables, and the bits that are not fixed, fill the registers and the bits
between scratch and the windows.  Fixed bits and ports are where the model says.  Every global of
every module has an address, reached or not, unless it is a constant that is no array, and no other
label has one. -/
theorem globals_tile_their_spaces {model : Model.Program} {c : Compilation}
    (h : build model = .ok c) (hlabels : model.LabelsApart) : ∃ s : Stages model c, s.Tiled := by
  obtain ⟨s⟩ := stages_of_build h
  exact ⟨s, s.tiled hlabels⟩

/-- A program with globals of all kinds in a module that is reached and in one that is not. -/
def spareModule : Model.Program :=
  let demo : Model.Module :=
    (({} : Model.Module).addFunction { label := "demo.main" })
      |>.addSymbol "log" (.ramArray 4) |>.addSymbol "count" .word
      |>.addSymbol "squares" (.constant .int [0, 1, 4]) |>.addSymbol "limit" (.constant .int [7])
  let spare : Model.Module :=
    ({} : Model.Module).addSymbol "store" (.ramArray 3)
      |>.addSymbol "pair" { Symbol.word with count := 2 } |>.addSymbol "ready" .flag
      |>.addSymbol "lamp" (.flagAt 40) |>.addSymbol "keys" (.portAt 3)
  { name := "demo", modules := (Table.empty.insert "demo" demo).insert "spare" spare }

/-- In `spareModule` the arrays of both modules fill the RAM, and the scalar constant has no
address. -/
theorem globals_tile_their_spaces_spareModule : ∃ c, build spareModule = .ok c ∧
    c.layout.ram = 7 ∧ c.layout.constants = 3 ∧
    c.layout.addresses.find? "demo.limit" = none ∧ ∃ s : Stages spareModule c, s.Tiled := by
  have hshape : (build spareModule).toOption.map (fun c =>
      (c.layout.ram, c.layout.constants, c.layout.addresses.find? "demo.limit")) =
        some (7, 3, none) := by decide +kernel
  obtain ⟨c, hbuild, hshape⟩ := Option.map_eq_some_iff.mp hshape
  obtain ⟨hram, hrest⟩ := Prod.mk.inj hshape
  obtain ⟨hconstants, hlimit⟩ := Prod.mk.inj hrest
  have hbuild := toOption_eq_some.mp hbuild
  exact ⟨c, hbuild, hram, hconstants, hlimit,
    globals_tile_their_spaces hbuild (by decide +kernel)⟩

end Stackless
