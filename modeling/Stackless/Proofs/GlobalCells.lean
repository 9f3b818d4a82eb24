import Stackless.Proofs.WindowStacking

/-!
# The cells that globals are given

Globals are placed one after another.  Each takes its cells from a cursor, and a
cursor only moves up: it stands where all the cells given so far end.

* `place_mark` — how far one placement moves the cursors;
* `gives_lt` — a cell given on the way lies below the cursor in the end;
* `exists_given` — the address of a global is the one that it was given.
-/

namespace Stackless.Storage

open Flat (File)
open Model (Symbol)

/-- The next free register and bit behind the globals placed so far. -/
def Cursors.mark (c : Cursors) : Mark :=
  ⟨c.registers, c.bits⟩

/-- The first cell of a file that is not scratch. -/
def scratch : File → Nat
  | .register => scratchRegisters
  | .bit => scratchBits

/-- How many cells of a file a global takes from the cursor.  A bit at a fixed
address takes none. -/
def cellsTaken (symbol : Symbol) : File → Nat
  | .register => if symbol.storage = .register then symbol.count.toNat else 0
  | .bit => if symbol.storage = .bit ∧ symbol.offset = none then 1 else 0

/-- A placement moves the cursors by the cells that the global takes: its count in the register
file, one bit if it is not fixed, and nothing for all other storage. -/
theorem place_mark {c d : Cursors} {label : String} {symbol : Symbol}
    (h : c.place label symbol = .ok d) (file : File) :
    d.mark.at file = c.mark.at file + cellsTaken symbol file := by
  unfold Cursors.place at h
  split at h
  · cases h
  · split at h
    · rename_i hs
      cases h
      cases file with
      | register => simp [cellsTaken, hs]
      | bit => simp [cellsTaken, hs]
    · rename_i hs ho
      cases h
      cases file with
      | register => simp [cellsTaken, hs, Cursors.mark, Mark.at]
      | bit => simp [cellsTaken, ho, Cursors.mark, Mark.at]
    · rename_i hs ho
      cases h
      cases file with
      | register => simp [cellsTaken, hs, Cursors.mark, Mark.at]
      | bit => simp [cellsTaken, hs, Cursors.mark, Mark.at]
    · cases h
    · rename_i hs
      obtain ⟨ram, _, h⟩ := bind_eq_ok.mp h
      cases h
      cases file with
      | register => simp [cellsTaken, hs, Cursors.mark, Mark.at]
      | bit => simp [cellsTaken, hs, Cursors.mark, Mark.at]
    · rename_i hs
      obtain ⟨registers, hregisters, h⟩ := bind_eq_ok.mp h
      cases h
      have heq := (checkWord_eq_ok.mp hregisters).2
      cases file with
      | register => simp [cellsTaken, hs, Cursors.mark, Mark.at, ← heq]
      | bit => simp [cellsTaken, hs, Cursors.mark, Mark.at]
    · rename_i hs ho
      obtain ⟨bits, hbits, h⟩ := bind_eq_ok.mp h
      cases h
      have heq := (checkWord_eq_ok.mp hbits).2
      cases file with
      | register => simp [cellsTaken, hs, Cursors.mark, Mark.at]
      | bit => simp [cellsTaken, hs, ho, Cursors.mark, Mark.at, ← heq]

/-- Globals placed one after another. -/
def placeAll (start : Cursors) (globals : List (String × Symbol)) : Except Failure Cursors :=
  globals.foldlM (fun c g => c.place g.1 g.2) start

/-- While the globals are placed, the address of the file is given to one of them
from the cursor. -/
def Gives (file : File) (start : Cursors) (globals : List (String × Symbol)) (address : Nat) :
    Prop :=
  ∃ before g after c, globals = before ++ g :: after ∧ placeAll start before = .ok c ∧
    c.mark.at file ≤ address ∧ address < c.mark.at file + cellsTaken g.2 file

/-- Cursors only move up. -/
theorem le_of_placeAll (file : File) :
    ∀ {globals : List (String × Symbol)} {start c : Cursors}, placeAll start globals = .ok c →
      start.mark.at file ≤ c.mark.at file
  | [], start, c, h => by
    cases h
    exact Nat.le_refl _
  | g :: rest, start, c, h => by
    rw [placeAll, List.foldlM_cons] at h
    obtain ⟨mid, hmid, h⟩ := bind_eq_ok.mp h
    have hstep := place_mark hmid file
    have hrest := le_of_placeAll file h
    omega

/-- A cell given on the way lies below the cursor in the end, since cursors only go up. Windows
start at the cursors, so no global that was handed its cells is in one. -/
theorem gives_lt {file : File} {globals : List (String × Symbol)} {start c : Cursors}
    (h : placeAll start globals = .ok c) {address : Nat}
    (hgive : Gives file start globals address) : address < c.mark.at file := by
  obtain ⟨before, g, after, mid, rfl, hbefore, _, hlt⟩ := hgive
  rw [placeAll, List.foldlM_append] at h
  obtain ⟨mid', hmid', h⟩ := bind_eq_ok.mp h
  have heq : mid' = mid := Except.ok.inj (hmid'.symm.trans hbefore)
  subst heq
  rw [List.foldlM_cons] at h
  obtain ⟨next, hnext, hafter⟩ := bind_eq_ok.mp h
  have hstep := place_mark hnext file
  have hle := le_of_placeAll file hafter
  omega

/-- The globals of a program in the order in which they are placed: module by module, and in name
order within a module. -/
def placedGlobals (model : Model.Program) (forest : Calls.Forest) : List (String × Symbol) :=
  (moduleOrder model forest).flatMap (moduleGlobals model)

/-- Variables that were placed were placed one after another. -/
theorem placeAll_of_placeVariables {model : Model.Program} {forest : Calls.Forest}
    {constants : Table Nat} {cursors : Cursors}
    (h : placeVariables model forest constants = .ok cursors) :
    placeAll { addresses := constants } (placedGlobals model forest) = .ok cursors := by
  obtain ⟨c, hc, h⟩ := bind_eq_ok.mp h
  dsimp only at h
  split at h
  · cases h
    exact hc
  · cases h

/-- The cursors start behind the scratch cells. -/
theorem scratch_le {model : Model.Program} {forest : Calls.Forest} {constants : Table Nat}
    {cursors : Cursors} (h : placeVariables model forest constants = .ok cursors) (file : File) :
    scratch file ≤ cursors.mark.at file := by
  have hle := le_of_placeAll file (placeAll_of_placeVariables h)
  cases file with
  | register => exact hle
  | bit => exact hle

/-- The address that a global gets when it is placed next. -/
def Cursors.given (c : Cursors) (symbol : Symbol) : Nat :=
  match symbol.storage, symbol.offset with
  | .bit, some fixed | .port, some fixed => fixed.toNat
  | .ram, _ => c.ram
  | .register, _ => c.registers
  | _, _ => c.bits

/-- A placement adds the address of the global, unless it is a constant. -/
theorem place_addresses {c d : Cursors} {label : String} {symbol : Symbol}
    (h : c.place label symbol = .ok d) :
    d.addresses =
      if symbol.storage = .rom then c.addresses else c.addresses.insert label (c.given symbol) := by
  unfold Cursors.place at h
  split at h
  · cases h
  · split at h
    · rename_i hs
      cases h
      rw [if_pos hs]
    · rename_i hs ho
      cases h
      simp [hs, ho, Cursors.given]
    · rename_i hs ho
      cases h
      simp [hs, ho, Cursors.given]
    · cases h
    · rename_i hs
      obtain ⟨_, _, h⟩ := bind_eq_ok.mp h
      cases h
      simp [hs, Cursors.given]
    · rename_i hs
      obtain ⟨_, _, h⟩ := bind_eq_ok.mp h
      cases h
      simp [hs, Cursors.given]
    · rename_i hs ho
      obtain ⟨_, _, h⟩ := bind_eq_ok.mp h
      cases h
      simp [hs, ho, Cursors.given]

/-- A label that no variable has keeps its address. -/
theorem find?_placeAll_of_not {label : String} :
    ∀ {globals : List (String × Symbol)} {start c : Cursors}, placeAll start globals = .ok c →
      (∀ g ∈ globals, g.1 = label → g.2.storage = .rom) →
      c.addresses.find? label = start.addresses.find? label
  | [], start, c, h, _ => by
    cases h
    rfl
  | g :: rest, start, c, h, hnone => by
    rw [placeAll, List.foldlM_cons] at h
    obtain ⟨mid, hmid, h⟩ := bind_eq_ok.mp h
    rw [find?_placeAll_of_not h fun g' hg' => hnone g' (List.mem_cons_of_mem _ hg'),
      place_addresses hmid]
    split
    · rfl
    · rename_i hs
      refine Table.find?_insert_of_ne _ _ ?_
      rintro rfl
      exact hs (hnone g List.mem_cons_self rfl)

/-- **The address of a variable** is the one that the last variable of its label was given. -/
theorem exists_given {label : String} :
    ∀ {globals : List (String × Symbol)} {start c : Cursors}, placeAll start globals = .ok c →
      (∃ symbol, (label, symbol) ∈ globals ∧ symbol.storage ≠ .rom) →
      ∃ before symbol after mid, globals = before ++ (label, symbol) :: after ∧
        symbol.storage ≠ .rom ∧ placeAll start before = .ok mid ∧
        c.addresses.find? label = some (mid.given symbol)
  | [], start, c, _, ⟨_, hmem, _⟩ => by cases hmem
  | g :: rest, start, c, h, ⟨symbol, hmem, hs⟩ => by
    rw [placeAll, List.foldlM_cons] at h
    obtain ⟨next, hnext, hafter⟩ := bind_eq_ok.mp h
    by_cases hlater : ∃ symbol, (label, symbol) ∈ rest ∧ symbol.storage ≠ .rom
    · obtain ⟨before, symbol', after, mid, rfl, hs', hbefore, hfind⟩ := exists_given hafter hlater
      refine ⟨g :: before, symbol', after, mid, rfl, hs', ?_, hfind⟩
      rw [placeAll, List.foldlM_cons, hnext]
      exact hbefore
    · have hfirst : (label, symbol) = g :=
        (List.mem_cons.mp hmem).resolve_right fun hrest => hlater ⟨symbol, hrest, hs⟩
      subst hfirst
      refine ⟨[], symbol, rest, start, rfl, hs, rfl, ?_⟩
      have hkept : c.addresses.find? label = next.addresses.find? label := by
        refine find?_placeAll_of_not hafter ?_
        rintro ⟨label', symbol'⟩ hmem' rfl
        by_cases hs' : symbol'.storage = .rom
        · exact hs'
        · exact absurd ⟨symbol', hmem', hs'⟩ hlater
      rw [hkept, place_addresses hnext, if_neg hs, Table.find?_insert_self]

/-- Every global of the program is placed. -/
theorem mem_placedGlobals {model : Model.Program} {forest : Calls.Forest} {module name : String}
    {symbol : Symbol} (h : model.global? module name = some symbol) :
    (Model.qualify module name, symbol) ∈ placedGlobals model forest := by
  obtain ⟨m, hm, hsymbol⟩ := Option.bind_eq_some_iff.mp h
  refine List.mem_flatMap.mpr ⟨module, ?_, ?_⟩
  · exact Calls.mem_distinct.mpr (List.mem_append_right _ (Calls.mem_keys_of_find? hm))
  · rw [moduleGlobals, hm]
    exact List.mem_map.mpr ⟨(name, symbol), Table.find?_eq_some.mp hsymbol, rfl⟩

end Stackless.Storage
