import Stackless.Flat.Listing

/-!
# Call trees

The processor has no stack, so a function cannot be active twice.  What can be
active together is read off the **call tree** of an entry point: the root is the
entry point and every call in a function's body is a child, one child for each
call.  A tree exists only if no name repeats on the way from the root to a leaf.

A handler of an interrupt makes no calls and is not called.

`unfolding` grows a tree while it keeps the names on the way from the root.  It
ends because each step puts one more name of the program on the way; `freeNames`
counts those that are not on it yet.
-/

namespace Stackless.Calls

open Flat (Program Function)

/-- A function and, in order, the trees of the functions it calls. -/
inductive CallTree where
  | node (name : String) (calls : List CallTree)
  deriving Inhabited

namespace CallTree

/-- The function at the root. -/
def name : CallTree → String
  | .node name _ => name

/-- The trees below the root. -/
def calls : CallTree → List CallTree
  | .node _ calls => calls

mutual

/-- The number of nodes. -/
def size : CallTree → Nat
  | .node _ calls => sizeAll calls + 1

/-- The number of nodes of several trees. -/
def sizeAll : List CallTree → Nat
  | [] => 0
  | tree :: rest => size tree + sizeAll rest

end

/-- The nodes of two lists of trees add up. -/
theorem sizeAll_append (xs ys : List CallTree) :
    sizeAll (xs ++ ys) = sizeAll xs + sizeAll ys := by
  induction xs with
  | nil => simp [sizeAll]
  | cons x xs ih => simp only [List.cons_append, sizeAll, ih]; omega

/-- Visits pending trees breadth first and adds each new name to the known ones.
The calls of a name that is already known are not visited again. -/
def discoverFrom (known : List String) (pending : List CallTree) : List String :=
  match pending with
  | [] => known
  | .node name calls :: rest =>
    if name ∈ known then discoverFrom known rest
    else discoverFrom (known ++ [name]) (rest ++ calls)
termination_by sizeAll pending
decreasing_by
  · simp only [sizeAll, size]; omega
  · simp only [sizeAll, size, sizeAll_append]; omega

/-- The names of a tree, each once, in breadth-first order. -/
def discovery (tree : CallTree) : List String :=
  discoverFrom [] [tree]

/-- The line of a node: its name, and its windows if the function is known. -/
def nodeLine (p : Program) (depth : Nat) (name : String) : String :=
  let windows := match p.find? name with
    | some f => ", " ++ f.windowText
    | none => ""
  Text.blanks (3 * depth) ++ name ++ windows ++ "\n"

mutual

/-- A tree at a depth, one line for each node. -/
def outlineAt (p : Program) (depth : Nat) : CallTree → String
  | .node name calls => nodeLine p depth name ++ outlineAll p (depth + 1) calls

/-- Trees at a depth, one after another. -/
def outlineAll (p : Program) (depth : Nat) : List CallTree → String
  | [] => ""
  | tree :: rest => outlineAt p depth tree ++ outlineAll p depth rest

end

/-- A tree as text, calls indented under their callers. -/
def outline (p : Program) (tree : CallTree) : String :=
  outlineAt p 0 tree

end CallTree

/-- How many functions of a program are not on a path. -/
def freeNames (p : Program) (path : List String) : Nat :=
  (p.keys.filter (· ∉ path)).length

/-- A name that is looked up with success is a name of the table. -/
theorem mem_keys_of_find? {α : Type} {t : Table α} {name : String} {a : α}
    (h : t.find? name = some a) : name ∈ t.keys := by
  obtain ⟨entries, ascending⟩ := t
  simp only [Table.find?, Table.keys] at *
  clear ascending
  induction entries with
  | nil => simp at h
  | cons e rest ih =>
    obtain ⟨key, value⟩ := e
    by_cases hk : name = key
    · simp [hk]
    · have hbeq : (name == key) = false := by simpa using hk
      rw [List.lookup_cons, hbeq] at h
      simp [ih h]

/-- A stronger test keeps at most as many elements. -/
theorem length_filter_le_of_imp {α : Type} (p q : α → Bool) (h : ∀ a, p a = true → q a = true) :
    ∀ xs : List α, (xs.filter p).length ≤ (xs.filter q).length := by
  intro xs
  induction xs with
  | nil => simp
  | cons x xs ih =>
    by_cases hp : p x = true
    · have hq := h x hp
      simp only [List.filter_cons, hp, hq, if_true, List.length_cons]
      omega
    · by_cases hq : q x = true
      · simp only [List.filter_cons, hp, hq, if_true, List.length_cons]
        simp only [Bool.false_eq_true, if_false]
        omega
      · simp only [List.filter_cons, hp, hq]
        simpa using ih

/-- A name of the program that joins the path is no longer free. -/
theorem freeNames_append_lt {p : Program} {path : List String} {label : String} {f : Function}
    (h : p.find? label = some f) (fresh : label ∉ path) :
    freeNames p (path ++ [label]) < freeNames p path := by
  have hmem := mem_keys_of_find? h
  simp only [freeNames]
  generalize p.keys = names at hmem
  induction names with
  | nil => simp at hmem
  | cons name rest ih =>
    have hle := length_filter_le_of_imp (fun n => decide (n ∉ path ++ [label]))
      (fun n => decide (n ∉ path)) (by intro n hn; simp at hn ⊢; exact hn.1) rest
    by_cases hn : name = label
    · subst hn
      have h1 : decide (name ∉ path ++ [name]) = false := by simp
      have h2 : decide (name ∉ path) = true := by simpa using fresh
      simp only [List.filter_cons, h1, h2, if_true, List.length_cons]
      simp only [Bool.false_eq_true, if_false]
      omega
    · have hrest : label ∈ rest := by
        rcases List.mem_cons.mp hmem with h | h
        · exact absurd h.symm hn
        · exact h
      have ih := ih hrest
      by_cases hp : name ∈ path
      · have h1 : decide (name ∉ path ++ [label]) = false := by simp [hp]
        have h2 : decide (name ∉ path) = false := by simpa using hp
        simp only [List.filter_cons, h1, h2]
        simpa using ih
      · have h1 : decide (name ∉ path ++ [label]) = true := by simp [hp, hn]
        have h2 : decide (name ∉ path) = true := by simpa using hp
        simp only [List.filter_cons, h1, h2, if_true, List.length_cons]
        omega

/-- Whether a label names an interrupt handler. -/
def isHandler (p : Program) (label : String) : Bool :=
  match p.find? label with
  | some f => f.isr
  | none => false

/-- A handler must make no call; the first one is at fault. -/
def checkHandler (f : Function) (label : String) : Except (Located CompileError) Unit :=
  match f.isr, f.calls with
  | true, (_, position) :: _ => .error ⟨position, .callFromInterrupt label⟩
  | _, _ => .ok ()

/-- The tree of a function that is reached along a path of callers. -/
def unfolding (p : Program) (path : List String) (label : String) (_fresh : label ∉ path) :
    Except (Located CompileError) CallTree :=
  match _h : p.find? label with
  | none => .error (.nowhere (.undefinedFunction label))
  | some f => do
    checkHandler f label
    let calls ← f.calls.mapM fun call =>
      if isHandler p call.1 then .error ⟨call.2, .callToInterrupt call.1⟩
      else if again : call.1 ∈ path ++ [label] then .error ⟨call.2, .recursion call.1⟩
      else unfolding p (path ++ [label]) call.1 again
    return .node label calls
termination_by freeNames p path
decreasing_by exact freeNames_append_lt _h _fresh

/-- The call tree of an entry point. -/
def CallTree.build (p : Program) (entry : String) : Except (Located CompileError) CallTree :=
  unfolding p [] entry List.not_mem_nil

end Stackless.Calls
