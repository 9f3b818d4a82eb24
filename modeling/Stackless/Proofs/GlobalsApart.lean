import Stackless.Proofs.Sources

/-!
# Globals are in nobody's way

The cells of register and bit variables are handed out from below the windows of all functions,
and the bits at fixed addresses are above them, in a program that is **tidy**: a register
variable has at least one register, fixed bits are outside of the bits that the program takes,
and globals that share a label are in the same kind of storage.  Then no variable is scratch,
and none is in a window (`Stages.global_apart`).

Labels are made from two names, so two globals can have one label, and the later one's address
stands for both.
-/

namespace Stackless

open Flat (File)
open Storage (placeAll placedGlobals)

/-- A program in which globals keep to their own cells. Register variables are not empty, fixed bits
lie above all that is handed out, and labels are shared by globals of one storage only. -/
structure Compilation.Tidy (model : Model.Program) (c : Compilation) : Prop where
  /-- Globals with one label are in the same kind of storage. -/
  coherent : ∀ g ∈ Storage.globals model, ∀ g' ∈ Storage.globals model, g.1 = g'.1 →
    g.2.storage = g'.2.storage
  counted : ∀ g ∈ Storage.globals model, g.2.storage = .register → 1 ≤ g.2.count.toNat
  fixed : ∀ g ∈ Storage.globals model, g.2.storage = .bit → ∀ address, g.2.offset = some address →
    c.layout.bits ≤ address.toNat

instance (model : Model.Program) (c : Compilation) : Decidable (c.Tidy model) :=
  decidable_of_iff ((∀ g ∈ Storage.globals model, ∀ g' ∈ Storage.globals model, g.1 = g'.1 →
      g.2.storage = g'.2.storage) ∧
    (∀ g ∈ Storage.globals model, g.2.storage = .register → 1 ≤ g.2.count.toNat) ∧
    ∀ g ∈ Storage.globals model, g.2.storage = .bit →
      g.2.offset.all (fun address => decide (c.layout.bits ≤ address.toNat)) = true)
    ⟨fun ⟨h1, h2, h3⟩ => ⟨h1, h2, fun g hg hbit => by simpa [Option.all_eq_true] using h3 g hg hbit⟩,
      fun ⟨h1, h2, h3⟩ => ⟨h1, h2, fun g hg hbit => by simpa [Option.all_eq_true] using h3 g hg hbit⟩⟩

namespace Storage

/-- What is placed is a global. -/
theorem mem_globals_of_placed {model : Model.Program} {forest : Calls.Forest}
    {g : String × Model.Symbol} (h : g ∈ placedGlobals model forest) : g ∈ globals model := by
  obtain ⟨module, _, hmem⟩ := List.mem_flatMap.mp h
  unfold moduleGlobals at hmem
  split at hmem
  · cases hmem
  · rename_i m hfind
    exact List.mem_flatMap.mpr ⟨(module, m), Table.find?_eq_some.mp hfind, hmem⟩

/-- The address of a variable that takes cells is where the cursor of the file stood. -/
theorem given_of_taken {symbol : Model.Symbol} {file : File} (h : 0 < cellsTaken symbol file)
    (c : Cursors) : c.given symbol = c.mark.at file := by
  unfold cellsTaken at h
  cases file with
  | register =>
      dsimp only at h
      split at h
      · rename_i hstorage
        simp only [Cursors.given, hstorage, Cursors.mark, Mark.at]
      · omega
  | bit =>
      dsimp only at h
      split at h
      · rename_i hstorage
        simp only [Cursors.given, hstorage.1, hstorage.2, Cursors.mark, Mark.at]
      · omega

/-- **The address of a variable that takes cells** is one of the cells that were handed out. -/
theorem given_lt {file : File} {before after : List (String × Model.Symbol)} {label : String}
    {symbol : Model.Symbol} {start mid final : Cursors} (hmid : placeAll start before = .ok mid)
    (h : placeAll start (before ++ (label, symbol) :: after) = .ok final)
    (htaken : 0 < cellsTaken symbol file) :
    start.mark.at file ≤ mid.given symbol ∧ mid.given symbol < final.mark.at file := by
  rw [given_of_taken htaken]
  exact ⟨le_of_placeAll file hmid,
    gives_lt h ⟨before, (label, symbol), after, mid, rfl, hmid, Nat.le_refl _,
      Nat.lt_add_of_pos_right htaken⟩⟩

end Storage

namespace Stages

variable {model : Model.Program} {c : Compilation}

/-- The totals of the layout are the marks above all windows. -/
def total (c : Compilation) : File → Nat
  | .register => c.layout.registers
  | .bit => c.layout.bits

theorem total_eq (s : Stages model c) (file : File) : total c file = s.storage.top.at file := by
  cases file with
  | register => exact congrArg Storage.Layout.registers s.storage.layout_eq
  | bit => exact congrArg Storage.Layout.bits s.storage.layout_eq

/-- **Every window ends below the total of its file.** -/
theorem le_total (s : Stages model c) {label : String} (h : label ∈ c.forest.reachable) :
    ∃ F, c.program.find? label = some F ∧
      ∀ file, (F.window file).base + (F.window file).count ≤ total c file := by
  obtain ⟨_, k, r, _, _, hk, hr, _⟩ := s.find?_final h
  obtain ⟨F, hF, hw⟩ := s.window_final h hr
  refine ⟨F, hF, fun file => ?_⟩
  rw [hw, s.total_eq]
  by_cases hh : label ∈ handlerNames c.forest
  · obtain ⟨r', hr', hbetween⟩ := s.topping.between label hh List.not_mem_nil
    rw [hr] at hr'
    cases hr'
    exact (hbetween file).2
  · rcases s.rooted.mem_reachable_iff.mp h with hoccurs | ⟨t, ht, rfl⟩
    · rw [s.topping.others label (.inr hh), hk] at hr
      cases hr
      have hdisc := (Calls.mem_discovery_iff s.rooted.main_unfolds).mpr hoccurs
      have hwater := (Storage.highWater_eq_ok s.storage.mainLine_eq file).2 label hdisc k hk
      exact Nat.le_trans hwater (s.topping.le file)
    · exact absurd (List.mem_map.mpr ⟨t, ht, rfl⟩) hh

/-- The cells of the globals end below the totals. -/
theorem cursors_le_total (s : Stages model c) (file : File) :
    s.storage.cursors.mark.at file ≤ total c file := by
  rw [s.total_eq]
  exact Nat.le_trans (Storage.highWater_eq_ok s.storage.mainLine_eq file).1 (s.topping.le file)

/-- A counted variable that takes no cell from a cursor is a bit of the hardware. -/
theorem fixed_of_cellsTaken (symbol : Model.Symbol) {file : File}
    (hfile : Storage.fileOf? symbol.storage = some file)
    (hcounted : symbol.storage = .register → 1 ≤ symbol.count.toNat)
    (htaken : ¬0 < Storage.cellsTaken symbol file) :
    ∃ fixed, symbol.storage = .bit ∧ symbol.offset = some fixed ∧ file = .bit := by
  unfold Storage.cellsTaken at htaken
  cases hkind : symbol.storage with
  | register =>
      rw [hkind] at hfile htaken
      cases hfile
      exact absurd (hcounted hkind) htaken
  | bit =>
      rw [hkind] at hfile htaken
      cases hfile
      cases hoffset : symbol.offset with
      | none =>
          rw [hoffset] at htaken
          exact absurd Nat.one_pos htaken
      | some fixed => exact ⟨fixed, rfl, rfl, rfl⟩
  | _ =>
      rw [hkind] at hfile
      cases hfile

/-- **Globals are neither scratch nor in a window** of a function that is reached, if the program is
tidy: fixed bits are to be above all windows. -/
theorem global_apart (s : Stages model c) (h : c.Tidy model) {module name : String}
    {symbol : Model.Symbol} {file : File} {address : Nat}
    (hglobal : model.global? module name = some symbol)
    (hfile : Storage.fileOf? symbol.storage = some file)
    (haddress : c.layout.addresses.find? (Model.qualify module name) = some address) :
    Storage.scratch file ≤ address ∧ ∀ label ∈ c.forest.reachable, ∀ F,
      c.program.find? label = some F → ¬(F.window file).Holds address := by
  have hplaced : (Model.qualify module name, symbol) ∈ placedGlobals model c.forest :=
    Storage.mem_placedGlobals hglobal
  have hstorage : symbol.storage ≠ .rom := by
    intro heq
    rw [heq] at hfile
    cases hfile
  have hall := Storage.placeAll_of_placeVariables s.storage.cursors_eq
  obtain ⟨before, last, after, mid, hsplit, _, hmid, hgiven⟩ :=
    Storage.exists_given hall ⟨symbol, hplaced, hstorage⟩
  rw [s.storage.layout_eq] at haddress
  rw [hgiven] at haddress
  cases haddress
  have hlast : (Model.qualify module name, last) ∈ Storage.globals model := by
    have hmem : (Model.qualify module name, last) ∈ placedGlobals model c.forest := by
      rw [hsplit]
      exact List.mem_append_right _ List.mem_cons_self
    exact Storage.mem_globals_of_placed hmem
  have hsame := h.coherent _ (Storage.mem_globals_of_placed hplaced) _ hlast rfl
  rw [hsame] at hfile
  by_cases htaken : 0 < Storage.cellsTaken last file
  · rw [hsplit] at hall
    obtain ⟨hle, hlt⟩ := Storage.given_lt hmid hall htaken
    refine ⟨?_, fun label hlabel F hF hholds => ?_⟩
    · refine Nat.le_trans ?_ hle
      cases file with
      | register => exact Nat.le_refl 2
      | bit => exact Nat.le_refl 1
    · obtain ⟨F', hF', hfree⟩ := s.free_le hlabel
      rw [hF] at hF'
      cases hF'
      exact absurd hholds.1 (Nat.not_le.mpr (Nat.lt_of_lt_of_le hlt (hfree file)))
  · obtain ⟨fixed, hbit, hoffset, rfl⟩ :=
      fixed_of_cellsTaken last hfile (h.counted _ hlast) htaken
    have hle := h.fixed _ hlast hbit fixed hoffset
    have haddress : mid.given last = fixed.toNat := by
      simp only [Storage.Cursors.given, hbit, hoffset]
    rw [haddress]
    refine ⟨?_, fun label hlabel F hF hholds => ?_⟩
    · exact Nat.le_trans (Nat.le_trans (Storage.scratch_le s.storage.cursors_eq .bit)
        (s.cursors_le_total .bit)) hle
    · obtain ⟨F', hF', hend⟩ := s.le_total hlabel
      rw [hF] at hF'
      cases hF'
      exact absurd hholds.2 (Nat.not_lt.mpr (Nat.le_trans (hend .bit) hle))

end Stages

end Stackless
