import Mathlib.Data.List.Basic
import Stackless.Model.Vectors

/-!
# Vector tables through all their changes

A vector table has a slot for level 0, and only the checks of `install` keep it empty.  A change may
fail when a part of it is done, so that a refused request leaves the table alone is not a matter of
its type either.  Both are shown here, of one change and then of all changes one after another.

* `install_apply` — all that an installation does: which checks it makes, in which order, and that
  it writes only behind the last of them;
* `exists_installFrom_iff`, `get_of_installFrom` — when a list can be installed, and what the levels
  hold then;
* `Request.unchanged_of_error`, `Request.reserved` — the step: what a request that is refused leaves,
  and what any request keeps;
* `reserved_afterAll` — the run, by induction over the requests;
* `levels_table`, `table_levels` — the levels from 1 to 15 are all of a table whose slot 0 is empty;
* `vector_tables_stay_valid` — all of it, of a table after any requests.
-/

namespace Stackless.Model

namespace VectorTable

variable {t u : VectorTable} {e : CompileError}

section Slots

/-- A table is known by its slots. -/
theorem ext_get (h : ∀ n, t.get n = u.get n) : t = u := by
  obtain ⟨slots, hslots⟩ := t
  obtain ⟨slots', hslots'⟩ := u
  have hsame : slots = slots' := by
    apply List.ext_getElem (hslots.trans hslots'.symm)
    intro n hn hn'
    have hget := h n
    simpa [get, List.getElem?_eq_getElem hn, List.getElem?_eq_getElem hn'] using hget
  subst hsame
  rfl

theorem get_empty (n : Nat) : empty.get n = none := by
  show ((List.replicate levelCount none)[n]?).join = none
  rw [List.getElem?_replicate]
  by_cases h : n < levelCount
  · rw [if_pos h, Option.join_some]
  · rw [if_neg h, Option.join_none]

theorem lt_of_get {n : Nat} {label : String} (h : t.get n = some label) : n < levelCount := by
  have hslot := Option.join_eq_some_iff.mp h
  have hlt := (List.getElem?_eq_some_iff.mp hslot).1
  rwa [t.length_slots] at hlt

theorem get_put {level : Nat} (h : level < levelCount) (label : String) (n : Nat) :
    (t.put level label).get n = if n = level then some label else t.get n := by
  rw [get, put, List.getElem?_set, t.length_slots]
  by_cases hn : level = n
  · rw [if_pos hn, if_pos h, if_pos hn.symm, Option.join_some]
  · rw [if_neg hn, if_neg (Ne.symm hn), get]

theorem getElem?_toList {n : Nat} (h : n < levelCount) : t.toList[n]? = some (t.get n) := by
  have hlt : n < t.slots.length := by rwa [t.length_slots]
  rw [toList, get, List.getElem?_eq_getElem hlt, Option.join_some]

end Slots

section Handlers

/-- The handlers stand in all slots but slot 0. -/
theorem mem_handlers_iff {level : Nat} {label : String} :
    (level, label) ∈ t.handlers ↔ 1 ≤ level ∧ t.get level = some label := by
  obtain ⟨slots, hslots⟩ := t
  cases slots with
  | nil => cases hslots
  | cons first rest =>
      have hget : ∀ n, 1 ≤ n → ((first :: rest)[n]? = some (some label) ↔
          rest[n - 1]? = some (some label)) := by
        intro n hn
        obtain ⟨k, rfl⟩ := Nat.exists_eq_add_of_le hn
        rw [Nat.add_comm 1 k, List.getElem?_cons_succ, Nat.add_sub_cancel]
      rw [handlers, List.mem_filterMap]
      constructor
      · intro h
        obtain ⟨⟨slot, n⟩, hmem, hslot⟩ := h
        obtain ⟨_, hlabel, hpair⟩ := Option.map_eq_some_iff.mp hslot
        cases hpair
        cases hlabel
        obtain ⟨hone, hat⟩ := List.mk_mem_zipIdx_iff_le_and_getElem?_sub.mp hmem
        exact ⟨hone, Option.join_eq_some_iff.mpr ((hget level hone).mpr hat)⟩
      · intro h
        obtain ⟨hone, hat⟩ := h
        have hat := (hget level hone).mp (Option.join_eq_some_iff.mp hat)
        exact ⟨(some label, level), List.mk_mem_zipIdx_iff_le_and_getElem?_sub.mpr ⟨hone, hat⟩, rfl⟩

/-- The handlers are in the order of their levels. -/
theorem pairwise_handlers (t : VectorTable) : t.handlers.Pairwise fun h k => h.1 < k.1 := by
  have hslots : t.slots.zipIdx.Pairwise fun a b => a.2 < b.2 := by
    rw [← List.pairwise_map (f := Prod.snd), List.zipIdx_map_snd]
    exact List.pairwise_lt_range'
  refine List.pairwise_filterMap.mpr ((hslots.drop).imp fun {a b} hlt h hh k hk => ?_)
  obtain ⟨_, _, rfl⟩ := Option.map_eq_some_iff.mp hh
  obtain ⟨_, _, rfl⟩ := Option.map_eq_some_iff.mp hk
  exact hlt

end Handlers

section Installing

/-- **All that an installation does.**  The level is looked at before the slot, and the slot before
anything is written; so a refused installation leaves the table that it found. -/
theorem install_apply (level : Nat) (label : String) (t : VectorTable) :
    install level label t =
      if level = 0 then .error .reservedVector t
      else if levelCount ≤ level then .error (.vectorOutOfRange level) t
      else if (t.get level).isSome then .error (.duplicateVector level) t
      else .ok () (t.put level label) := by
  unfold install
  by_cases hzero : level = 0
  · rw [if_pos hzero, if_pos hzero]
    rfl
  rw [if_neg hzero, if_neg hzero]
  by_cases hlevel : levelCount ≤ level
  · rw [if_pos hlevel, if_pos hlevel]
    rfl
  rw [if_neg hlevel, if_neg hlevel]
  change (if (t.get level).isSome then throw (.duplicateVector level)
    else set (t.put level label) : Change Unit) t = _
  by_cases htaken : (t.get level).isSome
  · rw [if_pos htaken, if_pos htaken]
    rfl
  · rw [if_neg htaken, if_neg htaken]
    rfl

/-- A level takes a handler just if it exists, is not level 0, and is free. -/
theorem install_eq_ok_iff {level : Nat} {label : String} :
    install level label t = .ok () u ↔
      1 ≤ level ∧ level ≤ 15 ∧ t.get level = none ∧ u = t.put level label := by
  rw [install_apply]
  by_cases hzero : level = 0
  · simp [hzero]
  by_cases hlevel : levelCount ≤ level
  · have hmany : 16 ≤ level := hlevel
    rw [if_neg hzero, if_pos hlevel]
    simp only [reduceCtorEq, false_iff]
    omega
  have hfew : ¬16 ≤ level := hlevel
  rw [if_neg hzero, if_neg hlevel]
  cases hget : t.get level with
  | some other => simp
  | none =>
      have hone : 1 ≤ level := by omega
      have hfifteen : level ≤ 15 := by omega
      simp [hone, hfifteen, eq_comm]

theorem install_eq_error (h : install level label t = .error e u) : u = t := by
  rw [install_apply] at h
  split_ifs at h
  all_goals cases h; rfl

/-- The table that a change leaves behind, whether it is finished or fails. -/
def Change.leaves (change : Change Unit) (t : VectorTable) : VectorTable :=
  match change t with
  | .ok _ u => u
  | .error _ u => u

theorem leaves_of_ok {change : Change Unit} (h : change t = .ok () u) : Change.leaves change t = u := by
  rw [Change.leaves, h]

theorem leaves_of_error {change : Change Unit} (h : change t = .error e u) :
    Change.leaves change t = u := by
  rw [Change.leaves, h]

/-- **The step for one level**: whatever becomes of an installation, slot 0 stays empty. -/
theorem reserved_install {level : Nat} {label : String} (h : t.get 0 = none) :
    (Change.leaves (install level label) t).get 0 = none := by
  cases hresult : install level label t with
  | error e u =>
      rw [leaves_of_error hresult, install_eq_error hresult]
      exact h
  | ok done u =>
      obtain ⟨hone, hfifteen, _, rfl⟩ := install_eq_ok_iff.mp hresult
      have hlevel : level < levelCount := Nat.lt_succ_of_le hfifteen
      rw [leaves_of_ok hresult, get_put hlevel, if_neg (by omega)]
      exact h

/-- Positions past 255 count as 255, and neither is a level. -/
theorem install_min_eq_ok_iff {level : Nat} {label : String} :
    install (min level 255) label t = .ok () u ↔ install level label t = .ok () u := by
  by_cases hle : level ≤ 255
  · rw [Nat.min_eq_left hle]
  · rw [Nat.min_eq_right (by omega), install_eq_ok_iff, install_eq_ok_iff]
    constructor
    · intro h
      exact absurd h.2.1 (by omega)
    · intro h
      exact absurd h.2.1 (by omega)

theorem installFrom_cons (level : Nat) (label : String) (rest : List (Option String)) :
    installFrom level (some label :: rest) =
      EStateM.bind (install (min level 255) label) fun _ => installFrom (level + 1) rest := rfl

theorem installFrom_cons_eq_ok_iff {level : Nat} {label : String} {rest : List (Option String)} :
    installFrom level (some label :: rest) t = .ok () u ↔
      ∃ w, install level label t = .ok () w ∧ installFrom (level + 1) rest w = .ok () u := by
  simp only [← @install_min_eq_ok_iff t _ level]
  rw [installFrom_cons, EStateM.bind]
  cases install (min level 255) label t with
  | error e w => simp
  | ok done w => simp

/-- The step for a list: also where the installation of a list breaks off, slot 0 is empty. -/
theorem reserved_installFrom {slots : List (Option String)} {level : Nat} (h : t.get 0 = none) :
    (Change.leaves (installFrom level slots) t).get 0 = none := by
  induction slots generalizing level t with
  | nil => exact h
  | cons slot rest ih =>
      cases slot with
      | none => exact ih h
      | some label =>
          have hstep := @reserved_install t (min level 255) label h
          rw [Change.leaves, installFrom_cons, EStateM.bind]
          cases hresult : install (min level 255) label t with
          | error e u =>
              rw [leaves_of_error hresult] at hstep
              exact hstep
          | ok done u =>
              rw [leaves_of_ok hresult] at hstep
              exact ih hstep

/-- Such a list leaves the handlers that it has installed before. -/
example : (Change.leaves (installFrom 15 [some "demo.tick", some "demo.tock"]) empty).get 15 =
    some "demo.tick" := by
  decide +kernel

/-- **A list can be installed** just if all its handlers stand at free levels from 1 to 15. -/
theorem exists_installFrom_iff {slots : List (Option String)} {level : Nat} :
    (∃ u, installFrom level slots t = .ok () u) ↔ ∀ i label, slots[i]? = some (some label) →
      1 ≤ level + i ∧ level + i ≤ 15 ∧ t.get (level + i) = none := by
  induction slots generalizing level t with
  | nil =>
      constructor
      · intro _ i label hi
        cases hi
      · intro _
        exact ⟨t, rfl⟩
  | cons slot rest ih =>
      have hnext : ∀ i, level + 1 + i = level + (i + 1) := by
        intro i
        omega
      cases slot with
      | none =>
          rw [installFrom, ih]
          constructor
          · intro h i label hi
            cases i with
            | zero => cases hi
            | succ i => simpa only [hnext] using h i label hi
          · intro h i label hi
            rw [hnext]
            exact h (i + 1) label hi
      | some label =>
          constructor
          · intro h i other hi
            obtain ⟨u, hu⟩ := h
            obtain ⟨w, hw, hrest⟩ := installFrom_cons_eq_ok_iff.mp hu
            obtain ⟨hone, hfifteen, hfree, rfl⟩ := install_eq_ok_iff.mp hw
            cases i with
            | zero => exact ⟨hone, hfifteen, hfree⟩
            | succ i =>
                obtain ⟨hlow, hhigh, hempty⟩ := ih.mp ⟨u, hrest⟩ i other hi
                rw [hnext] at hlow hhigh hempty
                rw [get_put (Nat.lt_succ_of_le hfifteen), if_neg (by omega)] at hempty
                exact ⟨hlow, hhigh, hempty⟩
          · intro h
            obtain ⟨hone, hfifteen, hfree⟩ : 1 ≤ level ∧ level ≤ 15 ∧ t.get level = none :=
              h 0 label rfl
            have hinstall : install level label t = .ok () (t.put level label) :=
              install_eq_ok_iff.mpr ⟨hone, hfifteen, hfree, rfl⟩
            have hrest : ∃ u, installFrom (level + 1) rest (t.put level label) = .ok () u := by
              apply ih.mpr
              intro i other hi
              rw [get_put (Nat.lt_succ_of_le hfifteen), if_neg (by omega), hnext]
              exact h (i + 1) other hi
            obtain ⟨u, hu⟩ := hrest
            exact ⟨u, installFrom_cons_eq_ok_iff.mpr ⟨_, hinstall, hu⟩⟩

/-- **The levels hold what the list says**, and what they held where it says nothing. -/
theorem get_of_installFrom {slots : List (Option String)} {level : Nat}
    (h : installFrom level slots t = .ok () u) (n : Nat) :
    u.get n = if n < level then t.get n else ((slots[n - level]?).join).or (t.get n) := by
  induction slots generalizing level t with
  | nil =>
      cases h
      simp
  | cons slot rest ih =>
      have hbehind : level < n → n - level = n - (level + 1) + 1 := by
        intro hlt
        omega
      cases slot with
      | none =>
          rw [ih h]
          obtain hlt | rfl | hgt := Nat.lt_trichotomy n level
          · rw [if_pos (by omega), if_pos hlt]
          · simp
          · rw [if_neg (by omega), if_neg (by omega), hbehind hgt, List.getElem?_cons_succ]
      | some label =>
          obtain ⟨w, hw, hrest⟩ := installFrom_cons_eq_ok_iff.mp h
          obtain ⟨_, hfifteen, _, rfl⟩ := install_eq_ok_iff.mp hw
          rw [ih hrest, get_put (Nat.lt_succ_of_le hfifteen)]
          obtain hlt | rfl | hgt := Nat.lt_trichotomy n level
          · rw [if_pos (by omega), if_neg (by omega), if_pos hlt]
          · simp
          · rw [if_neg (by omega), if_neg (by omega), if_neg (by omega), hbehind hgt,
              List.getElem?_cons_succ]

end Installing

section Lists

variable {slots : List (Option String)}

theorem ofList_eq_ok_iff : ofList slots = .ok t ↔ installFrom 0 slots empty = .ok () t := by
  rw [ofList]
  cases installFrom 0 slots empty with
  | ok done u => simp
  | error e u => simp

/-- A list describes a table just if all its handlers stand at levels from 1 to 15. -/
theorem exists_ofList_iff :
    (∃ t, ofList slots = .ok t) ↔ ∀ i label, slots[i]? = some (some label) → 1 ≤ i ∧ i ≤ 15 := by
  simp only [ofList_eq_ok_iff, exists_installFrom_iff, Nat.zero_add, get_empty, and_true]

theorem get_of_ofList (h : ofList slots = .ok t) (n : Nat) : t.get n = (slots[n]?).join := by
  rw [get_of_installFrom (ofList_eq_ok_iff.mp h) n, if_neg (Nat.not_lt_zero n), get_empty,
    Option.or_none, Nat.sub_zero]

/-- **A table is read back from its encoding**, if its slot 0 is empty. -/
theorem ofList_toList (h : t.get 0 = none) : ofList t.toList = .ok t := by
  have hslot : ∀ n, (t.toList[n]?).join = t.get n := fun _ => rfl
  obtain ⟨u, hu⟩ : ∃ u, ofList t.toList = .ok u := by
    apply exists_ofList_iff.mpr
    intro i label hi
    have hget : t.get i = some label := by rw [← hslot, hi, Option.join_some]
    have hlt := lt_of_get hget
    refine ⟨?_, Nat.le_of_lt_succ hlt⟩
    by_contra hzero
    obtain rfl : i = 0 := by omega
    rw [h] at hget
    cases hget
  have hsame : u = t := by
    apply ext_get
    intro n
    rw [get_of_ofList hu, hslot]
  rw [hu, hsame]

theorem load_eq_ok_iff : load slots t = .ok () u ↔ ofList slots = .ok u := by
  rw [load]
  cases ofList slots with
  | ok w =>
      change (EStateM.Result.ok () w : EStateM.Result CompileError VectorTable Unit) = .ok () u ↔ _
      simp
  | error e =>
      change (EStateM.Result.error e t : EStateM.Result CompileError VectorTable Unit) = .ok () u ↔ _
      simp

theorem load_eq_error (h : load slots t = .error e u) : u = t := by
  rw [load] at h
  cases hlist : ofList slots with
  | ok w =>
      rw [hlist] at h
      cases h
  | error e =>
      rw [hlist] at h
      cases h
      rfl

end Lists

section Requests

/-- What a table is asked for: one handler more, or the handlers of a list instead of its own. -/
inductive Request where
  | install (level : Nat) (label : String)
  | load (slots : List (Option String))

/-- The change that is asked for. -/
def Request.change : Request → Change Unit
  | .install level label => VectorTable.install level label
  | .load slots => VectorTable.load slots

/-- The table after a request, granted or refused. -/
def after (t : VectorTable) (request : Request) : VectorTable :=
  Change.leaves request.change t

/-- The table after requests, from the empty one on. -/
def afterAll (requests : List Request) : VectorTable :=
  requests.foldl after empty

/-- **A refused request leaves the table as it is**: an installation writes behind its last check,
and a list is tried out on a table of its own. -/
theorem Request.unchanged_of_error {request : Request} (h : request.change t = .error e u) :
    u = t := by
  cases request with
  | install level label => exact install_eq_error h
  | load slots => exact load_eq_error h

/-- **The step**: after any request slot 0 is as empty as before. A label that is installed at level
0 is refused, and a list with something in its first slot too. -/
theorem Request.reserved (request : Request) (h : t.get 0 = none) :
    (t.after request).get 0 = none := by
  cases request with
  | install level label => exact reserved_install h
  | load slots =>
      cases hload : VectorTable.load slots t with
      | error e u =>
          have hleft : t.after (.load slots) = u := leaves_of_error hload
          rw [hleft, load_eq_error hload]
          exact h
      | ok done u =>
          have hleft : t.after (.load slots) = u := leaves_of_ok hload
          have hfilled := ofList_eq_ok_iff.mp (load_eq_ok_iff.mp hload)
          rw [hleft, ← leaves_of_ok hfilled]
          exact reserved_installFrom (get_empty 0)

theorem reserved_foldl {requests : List Request} (h : t.get 0 = none) :
    (requests.foldl after t).get 0 = none := by
  induction requests generalizing t with
  | nil => exact h
  | cons request rest ih => exact ih (request.reserved h)

/-- **The run**: slot 0 is empty after any requests, in whichever order they come and whichever of
them are refused. By induction on the requests, from the empty table. -/
theorem reserved_afterAll (requests : List Request) : (afterAll requests).get 0 = none :=
  reserved_foldl (get_empty 0)

end Requests

end VectorTable

section Levels

variable {v : Vectors} {t : VectorTable}

theorem Vectors.get_table (v : Vectors) (n : Nat) : v.table.get n = v.get n := by
  cases n with
  | zero => rfl
  | succ n => rfl

theorem Vectors.handlers_table (v : Vectors) : v.table.handlers = v.handlers := by
  change (v.levels.zipIdx 1).filterMap _ = v.levels.zipIdx.filterMap _
  rw [List.zipIdx_succ, List.filterMap_map]
  rfl

theorem Vectors.levels_table (v : Vectors) : v.table.levels = v := rfl

/-- A table whose slot 0 is empty is the table of its levels, so that for tables that come about by
requests the fifteen levels are all there is to know. -/
theorem VectorTable.table_levels (h : t.get 0 = none) : t.levels.table = t := by
  obtain ⟨slots, hslots⟩ := t
  cases slots with
  | nil => cases hslots
  | cons first rest =>
      have hfirst : first = none := h
      subst hfirst
      rfl

theorem Vectors.mem_handlers_iff {level : Nat} {label : String} :
    (level, label) ∈ v.handlers ↔ v.get level = some label := by
  rw [← Vectors.handlers_table, VectorTable.mem_handlers_iff, Vectors.get_table]
  refine and_iff_right_of_imp fun h => Nat.pos_of_ne_zero fun hzero => ?_
  subst hzero
  cases h

theorem Vectors.pairwise_handlers (v : Vectors) : v.handlers.Pairwise fun h k => h.1 < k.1 := by
  rw [← Vectors.handlers_table]
  exact v.table.pairwise_handlers

end Levels

end Stackless.Model

namespace Stackless

open Model (VectorTable)

/-- **Vector tables stay valid.**  Take the table after any requests, granted or refused, from the
empty table on.  Slot 0 is empty, and a request that is refused leaves the table exactly as it was,
although it works on the table in place.  An installation is granted just if its level is from 1 to
15 and free, and it changes no other slot.  The handlers are the levels that have one, in strictly
ascending order and from 1 to 15, each with its label.  Loading a list puts the table it describes
in place of the old one; a list of any length describes a table just if all its handlers stand at
positions from 1 to 15, and then every slot is as the list says and the slots behind its end are
empty.  The list that the table is written as has the slots in order and is read back as the table,
and the table is known by its levels from 1 to 15. -/
theorem vector_tables_stay_valid (requests : List VectorTable.Request) :
    (VectorTable.afterAll requests).get 0 = none ∧
    (∀ (request : VectorTable.Request) e t,
      request.change (VectorTable.afterAll requests) = .error e t →
      t = VectorTable.afterAll requests) ∧
    (∀ level label t,
      VectorTable.install level label (VectorTable.afterAll requests) = .ok () t ↔
        1 ≤ level ∧ level ≤ 15 ∧ (VectorTable.afterAll requests).get level = none ∧
          ∀ n, t.get n = if n = level then some label
            else (VectorTable.afterAll requests).get n) ∧
    (∀ level label, (level, label) ∈ (VectorTable.afterAll requests).handlers ↔
      (VectorTable.afterAll requests).get level = some label) ∧
    (VectorTable.afterAll requests).handlers.Pairwise (fun h k => h.1 < k.1) ∧
    (∀ h ∈ (VectorTable.afterAll requests).handlers, 1 ≤ h.1 ∧ h.1 ≤ 15) ∧
    (∀ slots t, VectorTable.load slots (VectorTable.afterAll requests) = .ok () t ↔
      VectorTable.ofList slots = .ok t) ∧
    (∀ slots, (∃ t, VectorTable.ofList slots = .ok t) ↔
      ∀ i label, slots[i]? = some (some label) → 1 ≤ i ∧ i ≤ 15) ∧
    (∀ slots t, VectorTable.ofList slots = .ok t →
      (∀ i slot, slots[i]? = some slot → t.get i = slot) ∧
      ∀ i, slots.length ≤ i → t.get i = none) ∧
    (∀ n, n < 16 → (VectorTable.afterAll requests).toList[n]? =
      some ((VectorTable.afterAll requests).get n)) ∧
    VectorTable.ofList (VectorTable.afterAll requests).toList =
      .ok (VectorTable.afterAll requests) ∧
    (VectorTable.afterAll requests).levels.table = VectorTable.afterAll requests := by
  have hreserved := VectorTable.reserved_afterAll requests
  generalize VectorTable.afterAll requests = t at hreserved
  have hlevel : ∀ {level label}, t.get level = some label → 1 ≤ level := by
    intro level label hget
    by_contra hzero
    obtain rfl : level = 0 := by omega
    rw [hreserved] at hget
    cases hget
  refine ⟨hreserved, fun request e u h => VectorTable.Request.unchanged_of_error h, ?_, ?_,
    t.pairwise_handlers, ?_, fun slots u => VectorTable.load_eq_ok_iff,
    fun slots => VectorTable.exists_ofList_iff, ?_, fun n hn => VectorTable.getElem?_toList hn,
    VectorTable.ofList_toList hreserved, VectorTable.table_levels hreserved⟩
  · intro level label u
    rw [VectorTable.install_eq_ok_iff]
    refine and_congr_right fun _ => and_congr_right fun hfifteen => and_congr_right fun _ => ?_
    have hput := @VectorTable.get_put t level (Nat.lt_succ_of_le hfifteen) label
    constructor
    · intro h
      rw [h]
      exact hput
    · intro h
      apply VectorTable.ext_get
      intro n
      rw [h, hput]
  · intro level label
    rw [VectorTable.mem_handlers_iff]
    exact and_iff_right_of_imp hlevel
  · intro h hh
    have hget := (VectorTable.mem_handlers_iff.mp hh).2
    exact ⟨hlevel hget, Nat.le_of_lt_succ (VectorTable.lt_of_get hget)⟩
  · intro slots u hlist
    have hget := VectorTable.get_of_ofList hlist
    constructor
    · intro i slot hi
      rw [hget, hi, Option.join_some]
    · intro i hi
      rw [hget, List.getElem?_eq_none hi, Option.join_none]

/-- A handler behind position 255 is refused like one behind the last level. -/
example : VectorTable.ofList (List.replicate 256 none ++ [some "demo.tick"]) =
    .error (.vectorOutOfRange 255) := by
  decide +kernel

end Stackless
