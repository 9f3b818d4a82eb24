import Stackless.Diagnostic.Error

/-!
# The interrupt vector table

The processor has sixteen priority levels.  Level 0 belongs to the program
entry and takes no handler, but it has a slot like the others.

* `VectorTable` is the table as it is stored and changed, with sixteen slots.
  `install` changes it in place and refuses level 0, levels that do not exist,
  and a second handler for one level; `ofList` fills an empty table with a list
  indexed by level, where positions past 255 count as 255, which is no level
  either.  Nothing but these checks keeps slot 0 empty.
* `Vectors` holds the levels from 1 to 15 and nothing else.  It is what a
  finished program has for its table, and `VectorTable.levels` and
  `Vectors.table` go from one to the other.
-/

namespace Stackless.Model

/-- The number of priority levels. -/
def levelCount : Nat := 16

/-- The table as it is stored: a slot for each level from 0 to 15. -/
structure VectorTable where
  slots : List (Option String)
  length_slots : slots.length = levelCount
  deriving DecidableEq

namespace VectorTable

/-- The table without handlers. -/
def empty : VectorTable := ⟨List.replicate levelCount none, List.length_replicate⟩

instance : Inhabited VectorTable := ⟨empty⟩

instance : EmptyCollection VectorTable := ⟨empty⟩

/-- What stands in the slot of a level, if there is such a level. -/
def get (t : VectorTable) (level : Nat) : Option String := (t.slots[level]?).join

/-- Writes the slot of a level; nothing is written past the last one. -/
def put (t : VectorTable) (level : Nat) (label : String) : VectorTable where
  slots := t.slots.set level (some label)
  length_slots := List.length_set.trans t.length_slots

/-- The handlers with their levels, in level order; slot 0 is passed over. -/
def handlers (t : VectorTable) : List (Nat × String) :=
  (t.slots.zipIdx.drop 1).filterMap fun (label, n) => label.map (n, ·)

/-- The table as a list indexed by level. -/
def toList (t : VectorTable) : List (Option String) := t.slots

/-- A change of a table in place.  It may fail halfway, and then leaves the
table as it is at that point. -/
abbrev Change := EStateM CompileError VectorTable

/-- Gives a level its handler. -/
def install (level : Nat) (label : String) : Change Unit :=
  if level = 0 then throw .reservedVector
  else if levelCount ≤ level then throw (.vectorOutOfRange level)
  else do
    let t ← getThe VectorTable
    if (t.get level).isSome then throw (.duplicateVector level)
    else set (t.put level label)

/-- Installs the handlers of a list whose first element has the given level. -/
def installFrom (level : Nat) : List (Option String) → Change Unit
  | [] => pure ()
  | none :: rest => installFrom (level + 1) rest
  | some label :: rest => do
    install (min level 255) label
    installFrom (level + 1) rest

/-- The table that a list indexed by level describes.  It is filled from the
empty one; if a handler is refused, those before it are lost with the table. -/
def ofList (slots : List (Option String)) : Except CompileError VectorTable :=
  match installFrom 0 slots empty with
  | .ok _ t => .ok t
  | .error e _ => .error e

/-- Replaces the table by the one that a list describes. -/
def load (slots : List (Option String)) : Change Unit :=
  match ofList slots with
  | .ok t => set t
  | .error e => throw e

end VectorTable

/-- The handlers of the levels from 1 to 15, in level order. -/
structure Vectors where
  levels : List (Option String)
  length_levels : levels.length = 15
  deriving DecidableEq

namespace Vectors

/-- The table without handlers. -/
def empty : Vectors := ⟨List.replicate 15 none, rfl⟩

instance : Inhabited Vectors := ⟨empty⟩

instance : EmptyCollection Vectors := ⟨empty⟩

/-- The handler of a level, if it has one. -/
def get (v : Vectors) : Nat → Option String
  | 0 => none
  | n + 1 => (v.levels[n]?).join

/-- The handlers with their levels, in level order. -/
def handlers (v : Vectors) : List (Nat × String) :=
  v.levels.zipIdx.filterMap fun (label, n) => label.map (n + 1, ·)

/-- The table as a list indexed by level. -/
def toList (v : Vectors) : List (Option String) :=
  none :: v.levels

/-- The stored table with these handlers, and with nothing in slot 0. -/
def table (v : Vectors) : VectorTable where
  slots := none :: v.levels
  length_slots := congrArg (· + 1) v.length_levels

end Vectors

/-- The levels of a stored table, without slot 0. -/
def VectorTable.levels (t : VectorTable) : Vectors where
  levels := t.slots.tail
  length_levels := List.length_tail.trans (congrArg (· - 1) t.length_slots)

end Stackless.Model
