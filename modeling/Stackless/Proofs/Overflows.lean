import Stackless.Proofs.OwnCells
import Stackless.Proofs.WindowLimits

/-!
# When the arithmetic of a build overflows

Addresses are words, and a sum that is no word ends the build with a trap.  The capacity of the
RAM and of the constants ROM is only looked at when everything has been placed, and there is no
capacity of the files at all.  So a program may ask for more than there are addresses, and then
it is not refused.

`Overflows` says when this is so, in the order of the phases:
* `placeConstants_eq_trap_iff` — the tables of constants declare too many words;
* `placeVariables_eq_trap_iff` — the variables that come first take too much of the RAM or of a
  file;
* `Prepared.allocate_eq_trap_iff` — or a call chain with the handlers on top of it needs too much
  of a file, and there is nothing else.

`storage_arithmetic_overflows_iff` says so of a whole build, and that more than the capacity is
refused as long as the sums are words.  `two_large_arrays` is a program that exceeds the RAM by so
much that it is not refused.
-/

namespace Stackless

open Flat (Program Function File CallChain)
open Calls (Forest)
open Model (Symbol)

/-- The variable gets an address, if there is room for it: it is no array of truth values and no
port without an address. -/
def Model.Symbol.Placeable (symbol : Symbol) : Prop :=
  ¬(symbol.type = .bool ∧ symbol.isArray = true) ∧ ¬(symbol.storage = .port ∧ symbol.offset = none)

namespace Storage

/-- A sum is a word, or the arithmetic traps. -/
theorem checkWord_cases (n : Nat) :
    (n < wordLimit ∧ checkWord n = .ok n) ∨ (wordLimit ≤ n ∧ checkWord n = .error .trap) := by
  by_cases h : n < wordLimit
  · exact .inl ⟨h, if_pos h⟩
  · exact .inr ⟨Nat.le_of_not_lt h, if_neg h⟩

section Constants

/-- **Tables are placed or leave the range of a word**, the latter just if they declare too many
words. -/
theorem placeTables_cases (gs : List (String × Symbol)) {start : Constants}
    (hstart : start.used < wordLimit) :
    (wordLimit ≤ start.used + declared gs ∧ placeTables start gs = .error .trap) ∨
      ∃ c, placeTables start gs = .ok c ∧ c.used < wordLimit := by
  induction gs generalizing start with
  | nil => exact .inr ⟨start, rfl, hstart⟩
  | cons g rest ih =>
      have hsum : declared (g :: rest) = g.2.count.toNat + declared rest := by
        rw [declared, declared, List.map_cons, List.sum_cons]
      have hrun : placeTables start (g :: rest) =
          start.place g.1 g.2 >>= fun next => placeTables next rest := rfl
      rcases checkWord_cases (start.used + g.2.count.toNat) with ⟨hlt, hok⟩ | ⟨hlimit, htrap⟩
      · have hplace : start.place g.1 g.2 =
            .ok ⟨start.addresses.insert g.1 start.used, start.used + g.2.count.toNat⟩ := by
          rw [Constants.place, hok]
          rfl
        rw [hrun, hplace, hsum, ← Nat.add_assoc]
        have hnext : (⟨start.addresses.insert g.1 start.used, start.used + g.2.count.toNat⟩ :
            Constants).used < wordLimit := hlt
        exact ih hnext
      · have hplace : start.place g.1 g.2 = .error .trap := by
          rw [Constants.place, htrap]
          rfl
        refine .inl ⟨by omega, ?_⟩
        rw [hrun, hplace]
        rfl

theorem inRange_noConstants : ({} : Constants).used < wordLimit := by
  decide

/-- Constants are placed, and then their number is looked at. -/
theorem placeConstants_eq (model : Model.Program) :
    placeConstants model = placeTables {} (tables model) >>= fun constants =>
      if constants.used ≤ capacity model.config.constBits then pure constants
      else throw (.error (.nowhere
        (.constantsOverflow constants.used (capacity model.config.constBits)))) :=
  rfl

/-- **Constants overflow** just if the tables declare too many words. The capacity is looked at
behind the last table, so that the sum overflows first. -/
theorem placeConstants_eq_trap_iff {model : Model.Program} :
    placeConstants model = .error .trap ↔ wordLimit ≤ declared (tables model) := by
  rcases placeTables_cases (tables model) inRange_noConstants with
    ⟨hlimit, htrap⟩ | ⟨c, hc, hlt⟩
  · rw [placeConstants_eq, htrap]
    exact iff_of_true rfl (by simpa using hlimit)
  · have hused := placeTables_used hc
    simp only [Nat.zero_add] at hused
    rw [placeConstants_eq, hc]
    refine iff_of_false (fun h => ?_) (by omega)
    change (if c.used ≤ _ then _ else _) = _ at h
    split at h
    · cases h
    · cases h

end Constants

section Variables

/-- How many words of the RAM a global takes. -/
def wordsTaken (symbol : Symbol) : Nat :=
  if symbol.storage = .ram then symbol.count.toNat else 0

/-- How many words of the RAM globals take. -/
def ramWords (gs : List (String × Symbol)) : Nat :=
  (gs.map fun g => wordsTaken g.2).sum

/-- All cursors are words. -/
structure Cursors.InRange (c : Cursors) : Prop where
  ram : c.ram < wordLimit
  mark : c.mark.InRange

/-- Globals that are placed next take a cursor out of range, be it that of the RAM or that of a
file. Cursors only go up, so the sums decide. -/
def Cursors.Overrun (c : Cursors) (gs : List (String × Symbol)) : Prop :=
  wordLimit ≤ c.ram + ramWords gs ∨ ∃ file, wordLimit ≤ c.mark.at file + takenBy file gs

/-- **What can happen to a global that is placed.** -/
theorem place_cases {c : Cursors} (hc : c.InRange) (g : String × Symbol) :
    (¬g.2.Placeable ∧ ∃ e, c.place g.1 g.2 = .error (.error e)) ∨
      (g.2.Placeable ∧ c.Overrun [g] ∧ c.place g.1 g.2 = .error .trap) ∨
      (g.2.Placeable ∧ ∃ d, c.place g.1 g.2 = .ok d ∧ d.InRange ∧
        d.ram = c.ram + wordsTaken g.2) := by
  obtain ⟨label, symbol⟩ := g
  by_cases harray : symbol.type = .bool ∧ symbol.isArray = true
  · refine .inl ⟨fun h => h.1 harray, .nowhere (.boolArray label), ?_⟩
    rw [Cursors.place, if_pos harray]
  unfold Cursors.place
  rw [if_neg harray]
  cases hs : symbol.storage with
  | rom => exact .inr (.inr ⟨⟨harray, by simp [hs]⟩, c, rfl, hc, by simp [wordsTaken, hs]⟩)
  | ram =>
      have hplaceable : symbol.Placeable := ⟨harray, by simp [hs]⟩
      rcases checkWord_cases (c.ram + symbol.count.toNat) with ⟨hlt, hok⟩ | ⟨hlimit, htrap⟩
      · simp only [hok]
        exact .inr (.inr ⟨hplaceable, _, rfl, ⟨hlt, hc.mark⟩, by simp [wordsTaken, hs]⟩)
      · simp only [htrap]
        exact .inr (.inl ⟨hplaceable, .inl (by simpa [ramWords, wordsTaken, hs] using hlimit), rfl⟩)
  | register =>
      have hplaceable : symbol.Placeable := ⟨harray, by simp [hs]⟩
      rcases checkWord_cases (c.registers + symbol.count.toNat) with ⟨hlt, hok⟩ | ⟨hlimit, htrap⟩
      · simp only [hok]
        refine .inr (.inr ⟨hplaceable, _, rfl, ⟨hc.ram, fun file => ?_⟩, by simp [wordsTaken, hs]⟩)
        cases file with
        | register => exact hlt
        | bit => exact hc.mark .bit
      · simp only [htrap]
        refine .inr (.inl ⟨hplaceable, .inr ⟨.register, ?_⟩, rfl⟩)
        simpa [takenBy, cellsTaken, hs, Cursors.mark, Mark.at] using hlimit
  | bit =>
      have hplaceable : symbol.Placeable := ⟨harray, by simp [hs]⟩
      cases ho : symbol.offset with
      | some fixed =>
          exact .inr (.inr ⟨hplaceable, _, rfl, ⟨hc.ram, hc.mark⟩, by simp [wordsTaken, hs]⟩)
      | none =>
          rcases checkWord_cases (c.bits + 1) with ⟨hlt, hok⟩ | ⟨hlimit, htrap⟩
          · simp only [hok]
            refine .inr (.inr ⟨hplaceable, _, rfl, ⟨hc.ram, fun file => ?_⟩,
              by simp [wordsTaken, hs]⟩)
            cases file with
            | register => exact hc.mark .register
            | bit => exact hlt
          · simp only [htrap]
            refine .inr (.inl ⟨hplaceable, .inr ⟨.bit, ?_⟩, rfl⟩)
            simpa [takenBy, cellsTaken, hs, ho, Cursors.mark, Mark.at] using hlimit
  | port =>
      cases ho : symbol.offset with
      | none => exact .inl ⟨fun h => h.2 ⟨hs, ho⟩, _, rfl⟩
      | some fixed =>
          exact .inr (.inr ⟨⟨harray, by simp [ho]⟩, _, rfl, ⟨hc.ram, hc.mark⟩,
            by simp [wordsTaken, hs]⟩)

theorem placeAll_cons (c : Cursors) (g : String × Symbol) (gs : List (String × Symbol)) :
    placeAll c (g :: gs) = c.place g.1 g.2 >>= fun d => placeAll d gs :=
  rfl

/-- Advancing over globals is advancing over the first and then over the others. -/
theorem overrun_cons {c d : Cursors} {g : String × Symbol} {gs : List (String × Symbol)}
    (hplace : c.place g.1 g.2 = .ok d) (hram : d.ram = c.ram + wordsTaken g.2) :
    c.Overrun (g :: gs) ↔ d.Overrun gs := by
  have hwords : ramWords (g :: gs) = wordsTaken g.2 + ramWords gs := by
    rw [ramWords, ramWords, List.map_cons, List.sum_cons]
  have htaken : ∀ file, takenBy file (g :: gs) = cellsTaken g.2 file + takenBy file gs := by
    intro file
    rw [takenBy, takenBy, List.map_cons, List.sum_cons]
  simp only [Cursors.Overrun, hwords, htaken, hram, place_mark hplace, Nat.add_assoc]

theorem not_overrun_nil {c : Cursors} (hc : c.InRange) : ¬c.Overrun [] := by
  intro h
  rcases h with hram | ⟨file, hfile⟩
  · exact absurd hc.ram (Nat.not_lt.mpr hram)
  · exact absurd (hc.mark file) (Nat.not_lt.mpr hfile)

/-- **Globals leave the range of a word** just if those that come first do, and they can be
placed. -/
theorem placeAll_eq_trap_iff {gs : List (String × Symbol)} {c : Cursors} (hc : c.InRange) :
    placeAll c gs = .error .trap ↔
      ∃ before after, gs = before ++ after ∧ (∀ g ∈ before, g.2.Placeable) ∧ c.Overrun before := by
  induction gs generalizing c with
  | nil =>
      refine iff_of_false (fun h => by cases h) fun h => ?_
      obtain ⟨before, after, hsplit, _, hover⟩ := h
      obtain ⟨rfl, rfl⟩ := List.append_eq_nil_iff.mp hsplit.symm
      exact not_overrun_nil hc hover
  | cons g rest ih =>
      -- what comes first is not nothing, so it begins with the global at hand
      have hfirst : ∀ before after, g :: rest = before ++ after → c.Overrun before →
          ∃ others, before = g :: others ∧ rest = others ++ after := by
        intro before after hsplit hover
        cases before with
        | nil => exact absurd hover (not_overrun_nil hc)
        | cons first others =>
            obtain ⟨rfl, rfl⟩ := List.cons.inj hsplit
            exact ⟨others, rfl, rfl⟩
      rcases place_cases hc g with ⟨hnot, e, herror⟩ | ⟨hplaceable, hover, htrap⟩ |
        ⟨hplaceable, d, hok, hd, hram⟩
      · rw [placeAll_cons, herror]
        refine iff_of_false (fun h => by cases h) fun h => ?_
        obtain ⟨before, after, hsplit, hall, hover⟩ := h
        obtain ⟨others, rfl, _⟩ := hfirst before after hsplit hover
        exact hnot (hall g List.mem_cons_self)
      · rw [placeAll_cons, htrap]
        refine iff_of_true rfl ⟨[g], rest, rfl, fun g' hg' => ?_, hover⟩
        rw [List.mem_singleton.mp hg']
        exact hplaceable
      · rw [placeAll_cons, hok]
        refine (ih hd).trans ⟨fun h => ?_, fun h => ?_⟩
        · obtain ⟨before, after, rfl, hall, hover⟩ := h
          exact ⟨g :: before, after, rfl, List.forall_mem_cons.mpr ⟨hplaceable, hall⟩,
            (overrun_cons hok hram).mpr hover⟩
        · obtain ⟨before, after, hsplit, hall, hover⟩ := h
          obtain ⟨others, rfl, hrest⟩ := hfirst before after hsplit hover
          exact ⟨others, after, hrest, (List.forall_mem_cons.mp hall).2,
            (overrun_cons hok hram).mp hover⟩

/-- Cursors that were moved are words, and the one of the RAM has moved by what was taken. -/
theorem inRange_placeAll {gs : List (String × Symbol)} {c d : Cursors} (hc : c.InRange)
    (h : placeAll c gs = .ok d) : d.InRange ∧ d.ram = c.ram + ramWords gs := by
  induction gs generalizing c with
  | nil =>
      cases h
      exact ⟨hc, rfl⟩
  | cons g rest ih =>
      rw [placeAll_cons] at h
      rcases place_cases hc g with ⟨_, e, herror⟩ | ⟨_, _, htrap⟩ | ⟨_, next, hok, hnext, hram⟩
      · rw [herror] at h
        cases h
      · rw [htrap] at h
        cases h
      · rw [hok] at h
        obtain ⟨hd, hsum⟩ := ih hnext h
        refine ⟨hd, ?_⟩
        rw [hsum, hram, ramWords, ramWords, List.map_cons, List.sum_cons, Nat.add_assoc]

/-- Variables that come first, and can be placed, take too much of the RAM or of a file. -/
def VariablesOverflow (gs : List (String × Symbol)) : Prop :=
  ∃ before after, gs = before ++ after ∧ (∀ g ∈ before, g.2.Placeable) ∧
    (wordLimit ≤ ramWords before ∨ ∃ file, wordLimit ≤ scratch file + takenBy file before)

theorem mark_start (constants : Table Nat) (file : File) :
    ({ addresses := constants } : Cursors).mark.at file = scratch file := by
  cases file with
  | register => rfl
  | bit => rfl

theorem inRange_start (constants : Table Nat) : ({ addresses := constants } : Cursors).InRange := by
  refine ⟨Nat.zero_lt_succ _, fun file => ?_⟩
  rw [mark_start]
  cases file with
  | register => decide
  | bit => decide

/-- Variables are placed, and then their words in the RAM are looked at. -/
theorem placeVariables_eq (model : Model.Program) (forest : Forest) (constants : Table Nat) :
    placeVariables model forest constants =
      placeAll { addresses := constants } (placedGlobals model forest) >>= fun cursors =>
        if cursors.ram ≤ capacity model.config.ramBits then pure cursors
        else throw (.error (.nowhere
          (.ramOverflow cursors.ram (capacity model.config.ramBits)))) :=
  rfl

/-- Variables that were placed fit into the RAM. -/
theorem ramWords_le_of_placeVariables {model : Model.Program} {forest : Forest}
    {constants : Table Nat} {cursors : Cursors}
    (h : placeVariables model forest constants = .ok cursors) :
    ramWords (placedGlobals model forest) ≤ capacity model.config.ramBits := by
  rw [placeVariables_eq] at h
  obtain ⟨placed, hplaced, h⟩ := bind_eq_ok.mp h
  have hram := (inRange_placeAll (inRange_start constants) hplaced).2
  rw [Nat.zero_add] at hram
  rw [← hram]
  split at h
  · assumption
  · cases h

/-- **Variables overflow** just if those that come first do: some can be placed one after the other,
and together they take more than a word can count. -/
theorem placeVariables_eq_trap_iff {model : Model.Program} {forest : Forest}
    {constants : Table Nat} : placeVariables model forest constants = .error .trap ↔
      VariablesOverflow (placedGlobals model forest) := by
  have hiff : placeAll { addresses := constants } (placedGlobals model forest) = .error .trap ↔
      VariablesOverflow (placedGlobals model forest) := by
    rw [placeAll_eq_trap_iff (inRange_start constants), VariablesOverflow]
    simp only [Cursors.Overrun, mark_start, Nat.zero_add]
  rw [← hiff, placeVariables_eq]
  cases hall : placeAll { addresses := constants } (placedGlobals model forest) with
  | error e => exact Iff.rfl
  | ok cursors =>
      refine iff_of_false (fun h => ?_) (fun h => by cases h)
      change (if cursors.ram ≤ _ then _ else _) = _ at h
      split at h
      · cases h
      · cases h

end Variables

/-- **How the arithmetic of an allocation overflows.** -/
inductive Overflows (model : Model.Program) (simple : Program) (forest : Forest) : Prop
  /-- The tables of constants declare too many words. -/
  | tables : wordLimit ≤ declared (tables model) → Overflows model simple forest
  /-- The constants fit, and the variables take too much. -/
  | globals : declared (tables model) ≤ capacity model.config.constBits →
      VariablesOverflow (placedGlobals model forest) → Overflows model simple forest
  /-- Constants and variables fit, and the windows need too much. -/
  | windows {framed : Program} : Framed model simple forest framed →
      WindowsOverflow model simple framed → Overflows model simple forest

theorem capacity_lt (bits : UInt32) : capacity bits < wordLimit := by
  unfold capacity
  split
  · rename_i hbits
    exact Nat.pow_lt_pow_right (by decide : 1 < 2) (m := bits.toNat) (n := 32) hbits
  · decide

/-- **Constants are placed** just if the ROM holds all that the tables declare. -/
theorem exists_placeConstants_iff {model : Model.Program} :
    (∃ constants, placeConstants model = .ok constants) ↔
      declared (tables model) ≤ capacity model.config.constBits := by
  constructor
  · intro h
    obtain ⟨constants, h⟩ := h
    rw [placeConstants_eq] at h
    obtain ⟨placed, hplaced, h⟩ := bind_eq_ok.mp h
    have hused := placeTables_used hplaced
    split at h
    · rename_i hle
      simp only [Nat.zero_add] at hused
      rw [← hused]
      exact hle
    · cases h
  · intro hle
    have hlt := capacity_lt model.config.constBits
    rcases placeTables_cases (tables model) inRange_noConstants with
      ⟨hlimit, _⟩ | ⟨placed, hplaced, _⟩
    · simp only [Nat.zero_add] at hlimit
      omega
    · have hused := placeTables_used hplaced
      simp only [Nat.zero_add] at hused
      refine ⟨placed, bind_eq_ok.mpr ⟨placed, hplaced, ?_⟩⟩
      exact if_pos (hused ▸ hle)

end Storage

namespace Stages

variable {model : Model.Program} {c : Compilation} (s : Stages model c)
include s

/-- **In an accepted build the windows end in range.** -/
theorem not_windowsOverflow : ¬Storage.WindowsOverflow model s.simple s.storage.framed := by
  intro h
  obtain ⟨file, chain, hchain, hlimit⟩ := h
  have hcursors := (Storage.inRange_placeAll (Storage.inRange_start _)
    (Storage.placeAll_of_placeVariables s.storage.cursors_eq)).1
  have htop := (hcursors.mark.highWater s.storage.mainLine_eq).stackHandlers s.storage.raised_eq
  have hle := (s.isGreatest_mainLine file).2 ⟨chain, hchain, rfl⟩
  have hinstalled : ∀ name ∈ model.vectors.installed, name ∈ c.forest.reachable := by
    intro name hname
    obtain ⟨level, hlevel⟩ := Model.Vectors.mem_installed.mp hname
    exact s.reachable_of_handler (s.mem_handlerNames (Model.Vectors.mem_handlers_iff.mpr hlevel))
  rw [Storage.cellsOf_append, ← s.cellsOf_final (s.reachable_of_chain hchain) file,
    ← s.cellsOf_final hinstalled file] at hlimit
  have htop := htop file
  rw [s.top_eq file] at htop
  omega

end Stages

namespace Prepared

open Storage (Framed Overflows)

variable {model : Model.Program} {simple : Program} {forest : Forest}
  (h : Prepared model simple forest)
include h

/-- Behind windows that end out of range no program is accepted. -/
theorem not_windowsOverflow_of_allocate {framed : Program}
    (hframed : Framed model simple forest framed) {result : Program × Storage.Layout}
    (hresult : Storage.allocate model simple forest = .ok result) :
    ¬Storage.WindowsOverflow model simple framed := by
  obtain ⟨program, layout⟩ := result
  obtain ⟨stages⟩ := Storage.stages_of_allocate hresult
  obtain ⟨flat, hflat, hsimple⟩ := h.flattened
  obtain ⟨constants, cursors, hconstants, hcursors, hframes⟩ := hframed.placed
  rw [stages.constants_eq] at hconstants
  cases hconstants
  rw [stages.cursors_eq] at hcursors
  cases hcursors
  rw [stages.framed_eq] at hframes
  cases hframes
  exact Stages.not_windowsOverflow (c := ⟨program, forest, layout⟩)
    ⟨flat, simple, hflat, hsimple, h.forest_eq, stages⟩

/-- **An allocation traps** just if its arithmetic overflows. The three cases exclude what an
earlier phase refuses, so that a trap is told from an error that comes before it. -/
theorem allocate_eq_trap_iff :
    Storage.allocate model simple forest = .error .trap ↔ Overflows model simple forest := by
  constructor
  · intro htrap
    rcases bind_eq_error.mp htrap with hconstants | ⟨constants, hconstants, hrest⟩
    · exact .tables (Storage.placeConstants_eq_trap_iff.mp hconstants)
    rcases bind_eq_error.mp hrest with hcursors | ⟨cursors, hcursors, hrest⟩
    · exact .globals (Storage.exists_placeConstants_iff.mp ⟨constants, hconstants⟩)
        (Storage.placeVariables_eq_trap_iff.mp hcursors)
    rcases bind_eq_error.mp hrest with hframes | ⟨framed, hframes, _⟩
    · exact absurd rfl (h.frames_ne_trap _ _ hframes)
    · have hframed : Framed model simple forest framed :=
        ⟨⟨constants, cursors, hconstants, hcursors, hframes⟩⟩
      exact .windows hframed (h.trapFor_allocate hframed _ htrap).2
  · intro hover
    cases hover with
    | tables hlimit =>
        rw [Storage.allocate, Storage.placeConstants_eq_trap_iff.mpr hlimit]
        rfl
    | globals hfit hover =>
        obtain ⟨constants, hconstants⟩ := Storage.exists_placeConstants_iff.mpr hfit
        refine bind_eq_error.mpr (.inr ⟨constants, hconstants, ?_⟩)
        exact bind_eq_error.mpr (.inl (Storage.placeVariables_eq_trap_iff.mpr hover))
    | windows hframed hover =>
        cases hallocate : Storage.allocate model simple forest with
        | error e => rw [(h.trapFor_allocate hframed e hallocate).1]
        | ok result => exact absurd hover (h.not_windowsOverflow_of_allocate hframed hallocate)

end Prepared

/-- What only reports errors does not trap. -/
theorem orFail_ne_trap {α : Type} {x : Except (Located CompileError) α} :
    orFail x ≠ .error .trap := by
  cases x with
  | error e =>
      intro h
      cases h
  | ok a =>
      intro h
      cases h

/-- **A build traps** just if the arithmetic of its allocation overflows. The phases before it never
trap on what was flattened from a model. -/
theorem build_eq_trap_iff {model : Model.Program} :
    build model = .error .trap ↔
      ∃ simple forest, Prepared model simple forest ∧ Storage.Overflows model simple forest := by
  constructor
  · intro htrap
    rcases bind_eq_error.mp htrap with hflat | ⟨flat, hflat, hrest⟩
    · exact absurd hflat orFail_ne_trap
    have hflat := orFail_eq_ok.mp hflat
    obtain ⟨simple, hsimple⟩ := Flat.exists_simplified hflat
    rcases bind_eq_error.mp hrest with herror | ⟨simple', hsimple', hrest⟩
    · rw [hsimple] at herror
      cases herror
    rw [hsimple] at hsimple'
    cases hsimple'
    rcases bind_eq_error.mp hrest with hforest | ⟨forest, hforest, hrest⟩
    · exact absurd hforest orFail_ne_trap
    have hprepared : Prepared model simple forest :=
      ⟨⟨flat, hflat, hsimple⟩, orFail_eq_ok.mp hforest⟩
    refine ⟨simple, forest, hprepared, hprepared.allocate_eq_trap_iff.mp ?_⟩
    rcases bind_eq_error.mp hrest with hallocate | ⟨_, _, hdone⟩
    · exact hallocate
    · cases hdone
  · intro hover
    obtain ⟨simple, forest, hprepared, hover⟩ := hover
    obtain ⟨flat, hflat, hsimple⟩ := hprepared.flattened
    refine bind_eq_error.mpr (.inr ⟨flat, orFail_eq_ok.mpr hflat, ?_⟩)
    refine bind_eq_error.mpr (.inr ⟨simple, hsimple, ?_⟩)
    refine bind_eq_error.mpr (.inr ⟨forest, orFail_eq_ok.mpr hprepared.forest_eq, ?_⟩)
    exact bind_eq_error.mpr (.inl (hprepared.allocate_eq_trap_iff.mpr hover))

section Totals

open Storage (declared tables ramWords takenBy scratch behindGlobals capacity globals placedGlobals)

variable {model : Model.Program} {simple : Program} {forest : Forest}

/-- The variables that are placed take as many words of the RAM as all globals. -/
theorem ramWords_placed (model : Model.Program) (forest : Forest) :
    ramWords (placedGlobals model forest) = ramWords (globals model) :=
  ((Storage.placedGlobals_perm model forest).map fun g : String × Symbol =>
    Storage.wordsTaken g.2).sum_nat

/-- **The variables of the first do not overflow** if all globals together do not. -/
theorem not_variablesOverflow (hram : ramWords (globals model) < wordLimit)
    (hfiles : ∀ file, behindGlobals model file < wordLimit) :
    ¬Storage.VariablesOverflow (placedGlobals model forest) := by
  intro h
  obtain ⟨before, after, hsplit, _, hover⟩ := h
  rcases hover with hlimit | ⟨file, hlimit⟩
  · have hsum := ramWords_placed model forest
    rw [hsplit, ramWords, List.map_append, List.sum_append_nat] at hsum
    rw [ramWords] at hlimit
    omega
  · have hsum := ((Storage.placedGlobals_perm model forest).map fun g : String × Symbol =>
      Storage.cellsTaken g.2 file).sum_nat
    have hfile := hfiles file
    rw [hsplit, List.map_append, List.sum_append_nat] at hsum
    rw [takenBy] at hlimit
    rw [behindGlobals, ← hsum] at hfile
    omega

/-- Where functions have frames, the constants and the RAM hold what is declared. -/
theorem Storage.Framed.le_capacity {framed : Program} (h : Framed model simple forest framed) :
    declared (tables model) ≤ capacity model.config.constBits ∧
      ramWords (globals model) ≤ capacity model.config.ramBits := by
  obtain ⟨constants, cursors, hconstants, hcursors, _⟩ := h.placed
  refine ⟨exists_placeConstants_iff.mp ⟨constants, hconstants⟩, ?_⟩
  rw [← ramWords_placed model forest]
  exact ramWords_le_of_placeVariables hcursors

/-- What neither succeeds nor traps reports an error. -/
theorem exists_error {α : Type} {x : Except Failure α} (hok : ∀ a, x ≠ .ok a)
    (htrap : x ≠ .error .trap) : ∃ e, x = .error (.error e) := by
  cases x with
  | ok a => exact absurd rfl (hok a)
  | error e =>
      cases e with
      | trap => exact absurd rfl htrap
      | error e => exact ⟨e, rfl⟩

end Totals

/-- **When the arithmetic of a build overflows.**  A build traps just if its model is flattened,
simplified and unfolded, and then the tables of constants declare too many words, or the
variables that come first take too many, or windows end out of range.  So a model that declares
more constants than the ROM holds is not accepted, and if the declared words have a sum that is a
word, it is refused with an error.  The same holds of the RAM, if nothing else overflows before. -/
theorem storage_arithmetic_overflows_iff (model : Model.Program) :
    (build model = .error .trap ↔
      ∃ simple forest, Prepared model simple forest ∧ Storage.Overflows model simple forest) ∧
    (Storage.capacity model.config.constBits < Storage.declared (Storage.tables model) →
      (∀ c, build model ≠ .ok c) ∧
      (Storage.declared (Storage.tables model) < wordLimit →
        ∃ e, build model = .error (.error e))) ∧
    (Storage.capacity model.config.ramBits < Storage.ramWords (Storage.globals model) →
      (∀ c, build model ≠ .ok c) ∧
      (Storage.declared (Storage.tables model) < wordLimit →
        Storage.ramWords (Storage.globals model) < wordLimit →
        (∀ file, Storage.behindGlobals model file < wordLimit) →
        ∃ e, build model = .error (.error e))) := by
  have hfits : ∀ c, build model = .ok c →
      Storage.declared (Storage.tables model) ≤ Storage.capacity model.config.constBits ∧
        Storage.ramWords (Storage.globals model) ≤ Storage.capacity model.config.ramBits := by
    intro c hbuild
    obtain ⟨s⟩ := stages_of_build hbuild
    exact Storage.Framed.le_capacity ⟨⟨s.storage.constants, s.storage.cursors,
      s.storage.constants_eq, s.storage.cursors_eq, s.storage.framed_eq⟩⟩
  refine ⟨build_eq_trap_iff, fun hrom => ?_, fun hram => ?_⟩
  · have hok : ∀ c, build model ≠ .ok c := fun c hbuild =>
      absurd (hfits c hbuild).1 (Nat.not_le.mpr hrom)
    refine ⟨hok, fun hdeclared => exists_error hok fun htrap => ?_⟩
    obtain ⟨simple, forest, _, hover⟩ := build_eq_trap_iff.mp htrap
    cases hover with
    | tables hlimit => omega
    | globals hfit _ => omega
    | windows hframed _ => exact absurd hframed.le_capacity.1 (Nat.not_le.mpr hrom)
  · have hok : ∀ c, build model ≠ .ok c := fun c hbuild =>
      absurd (hfits c hbuild).2 (Nat.not_le.mpr hram)
    refine ⟨hok, fun hdeclared hwords hfiles => exists_error hok fun htrap => ?_⟩
    obtain ⟨simple, forest, _, hover⟩ := build_eq_trap_iff.mp htrap
    cases hover with
    | tables hlimit => omega
    | globals _ hover => exact not_variablesOverflow hwords hfiles hover
    | windows hframed _ => exact absurd hframed.le_capacity.2 (Nat.not_le.mpr hram)

/-- A program with two arrays in the RAM and an entry that does nothing. -/
def twoArrays (first second : UInt32) : Model.Program :=
  let demo : Model.Module :=
    (({} : Model.Module).addSymbol "a" (.ramArray first)).addSymbol "b" (.ramArray second)
      |>.addFunction { label := "demo.main" }
  { name := "demo", modules := Table.empty.insert "demo" demo }

/-- Two arrays with a word more than the RAM has are refused. -/
theorem storage_arithmetic_overflows_iff_twoArrays :
    Storage.capacity (twoArrays 4094 3).config.ramBits <
        Storage.ramWords (Storage.globals (twoArrays 4094 3)) ∧
      ∃ e, build (twoArrays 4094 3) = .error (.error e) := by
  have hram : Storage.capacity (twoArrays 4094 3).config.ramBits <
      Storage.ramWords (Storage.globals (twoArrays 4094 3)) := by decide +kernel
  refine ⟨hram, ((storage_arithmetic_overflows_iff (twoArrays 4094 3)).2.2 hram).2
    (by decide +kernel) (by decide +kernel) fun file => ?_⟩
  cases file with
  | register => decide +kernel
  | bit => decide +kernel

/-- **Two arrays with more words than there are addresses are not refused.**  They exceed the
RAM, and the sum of their words is no word any more when it is compared to the capacity. -/
theorem two_large_arrays :
    Storage.capacity (twoArrays 4294967295 2).config.ramBits <
        Storage.ramWords (Storage.globals (twoArrays 4294967295 2)) ∧
      build (twoArrays 4294967295 2) = .error .trap := by
  refine ⟨by decide +kernel, ?_⟩
  have htrap : (build (twoArrays 4294967295 2)).map (fun _ => ()) = .error .trap := by
    decide +kernel
  cases hbuild : build (twoArrays 4294967295 2) with
  | error e =>
      rw [hbuild] at htrap
      exact congrArg _ (Except.error.inj htrap)
  | ok c =>
      rw [hbuild] at htrap
      cases htrap

end Stackless
