import Stackless.Flat.Function

/-!
# Simplifying flat functions

A round of simplification takes six steps over a body:

1. `resolve` — each run of adjacent markers shrinks to its first one, and every
   jump learns the index and the name of the marker it really goes to;
2. what follows a return up to the next marker is taken out;
3. `threadAll` — a jump to a jump goes straight to where that one goes;
4. markers that nothing goes to are taken out;
5. what follows a jump up to the next marker or return is taken out;
6. jumps to the next instruction are taken out.

Rounds are repeated until one changes nothing.  The first op, which holds the
entry marker, takes no part in steps 1 and 4.  A jump to a marker that stands
nowhere is an error; it is found in the first round, in dead code too.
-/

namespace Stackless.Flat

/-- A marker that stands for a whole run: its index and its name. -/
structure Landing where
  index : Nat
  name : String
  deriving DecidableEq

/-- The landing of the run that an op continues or starts, if it is a marker. -/
def landingAt (run : Option Landing) (index : Nat) (op : Op) : Option Landing :=
  match op.instruction with
  | .removed => run
  | .marker name => some (run.getD ⟨index, name⟩)
  | _ => none

/-- Where a marker name leads, in ops from index `index` on that follow the run
`run`.  Of two markers with one name the later counts. -/
def landingOf? (name : String) : Option Landing → Nat → List Op → Option Landing
  | _, _, [] => none
  | run, index, op :: rest =>
    match landingOf? name (landingAt run index op) (index + 1) rest with
    | some landing => some landing
    | none => if op.instruction = .marker name then landingAt run index op else none

/-- Takes out every marker that continues a run. -/
def mergeMarkers : Option Landing → Nat → List Op → List Op
  | _, _, [] => []
  | run, index, op :: rest =>
    let merged := if op.instruction.isMarker && run.isSome then op.remove else op
    merged :: mergeMarkers (landingAt run index op) (index + 1) rest

/-- A body whose first op keeps out of a step. -/
def pastEntry (step : List Op → List Op) : List Op → List Op
  | [] => []
  | entry :: rest => entry :: step rest

/-- Points every jump at its landing; `index` is the index of the first op. -/
def pointAll (label : String) (lookup : String → Option Landing) :
    (index : Nat) → List Op → Except (Located CompileError) (List Op)
  | _, [] => .ok []
  | index, op :: rest =>
    match op.instruction.target? with
    | none => do
      let rest ← pointAll label lookup (index + 1) rest
      return op :: rest
    | some target =>
      match lookup target.marker with
      | none => .error ⟨op.position, .internal label index (.undefinedMarker target.marker)⟩
      | some landing => do
        let target := { marker := landing.name, index := some landing.index }
        let rest ← pointAll label lookup (index + 1) rest
        return { op with instruction := op.instruction.retarget target } :: rest

/-- Merges runs of markers and points every jump at the index of its marker. -/
def resolve (label : String) (body : List Op) : Except (Located CompileError) (List Op) :=
  pointAll label (fun name => landingOf? name none 1 body.tail) 0
    (pastEntry (mergeMarkers none 1) body)

/-- Takes out what follows an instruction that `stops`, up to the next marker.
A return that does not itself stop ends the dead stretch and stays. -/
def stripAfter (stops : Instruction → Bool) : (dead : Bool) → List Op → List Op
  | _, [] => []
  | dead, op :: rest =>
    if op.instruction.isRemoved then op :: stripAfter stops dead rest
    else if op.instruction.isMarker then op :: stripAfter stops false rest
    else if !dead then op :: stripAfter stops (stops op.instruction) rest
    else if op.instruction.isReturn && !stops op.instruction then op :: stripAfter stops false rest
    else op.remove :: stripAfter stops true rest

/-- The jump that is the first live instruction after a target, with its index. -/
def jumpAfter? (body : List Op) (target : Target) : Option (Nat × Target) := do
  let marker ← target.index
  let next ← nextLive body (marker + 1)
  let op ← body[next]?
  match op.instruction with
  | .jump target => some (next, target)
  | _ => none

/-- Follows jumps from a target as long as they are in `fresh`; each is followed
once. -/
def follow (body : List Op) (fresh : List Nat) (target : Target) : Target :=
  match jumpAfter? body target with
  | none => target
  | some (next, target') =>
    if _h : next ∈ fresh then follow body (fresh.erase next) target' else target
termination_by fresh.length
decreasing_by
  have := List.length_erase_of_mem _h
  have := List.length_pos_of_mem _h
  omega

/-- Threads the jump at an index, if there is one. -/
def threadAt (body : List Op) (index : Nat) : List Op :=
  body.modify index fun op =>
    match op.instruction.target? with
    | none => op
    | some target =>
      let target := follow body (List.range body.length) target
      { op with instruction := op.instruction.retarget target }

/-- Threads all jumps from first to last; later ones see earlier ones threaded. -/
def threadAll (body : List Op) : List Op :=
  (List.range body.length).foldl threadAt body

/-- The indices that jumps go to. -/
def targeted (body : List Op) : List Nat :=
  body.filterMap fun op => op.instruction.target?.bind (·.index)

/-- Takes out markers that no jump goes to; `index` is the index of the first op. -/
def dropMarkers (used : List Nat) : (index : Nat) → List Op → List Op
  | _, [] => []
  | index, op :: rest =>
    let kept := if op.instruction.isMarker && !used.contains index then op.remove else op
    kept :: dropMarkers used (index + 1) rest

/-- Takes out markers that nothing goes to. -/
def removeUnusedMarkers (body : List Op) : List Op :=
  pastEntry (dropMarkers (targeted body) 1) body

/-- Takes out the jump at an index if it goes to the next live instruction. -/
def dropNoopAt (body : List Op) (index : Nat) : List Op :=
  body.modify index fun op =>
    match op.instruction with
    | .jump target =>
      if target.index.isSome && nextLive body (index + 1) = target.index then op.remove else op
    | _ => op

/-- Takes out jumps to the next instruction, from first to last. -/
def removeNoopJumps (body : List Op) : List Op :=
  (List.range body.length).foldl dropNoopAt body

/-- One round of simplification. -/
def round (label : String) (body : List Op) : Except (Located CompileError) (List Op) := do
  let body ← resolve label body
  let body := stripAfter Instruction.isReturn false body
  let body := removeUnusedMarkers (threadAll body)
  return removeNoopJumps (stripAfter Instruction.isJump false body)

/-- Repeats rounds until one changes nothing, at most `fuel` of them. -/
def settle (label : String) : (fuel : Nat) → List Op → Except (Located CompileError) (List Op)
  | 0, body => .ok body
  | fuel + 1, body => do
    let next ← round label body
    if next = body then return next else settle label fuel next

/-- A number of rounds that no body needs: rounds that take something out are at
most as many as there are ops, and a few rounds that only move targets come in
between. -/
def roundLimit (body : List Op) : Nat :=
  3 * body.length + 4

/-- Simplifies a function until nothing changes, and finds the last uses anew. -/
def Function.simplify (f : Function) : Except Failure Function := do
  let body ← orFail (settle f.label (roundLimit f.body) f.body)
  { f with body }.liveness

/-- Simplifies every function. -/
def Program.simplify (p : Program) : Except Failure Program :=
  Table.mapM Function.simplify p

/-- Finds the last uses of every function. -/
def Program.liveness (p : Program) : Except Failure Program :=
  Table.mapM Function.liveness p

end Stackless.Flat
