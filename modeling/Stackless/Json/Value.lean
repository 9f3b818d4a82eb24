/-!
# JSON values

A value keeps what a strict reader of program models has to see: fields in
the order they stand, with repeated names still repeated; and integers apart
from every other way to write a number.

A string literal may spell half of a surrogate pair by an escape.  Such a
literal is well formed but **stands for no text**; it is kept as `none`, so
that a reader can pass over it inside a value that nobody asked for and
refuse it everywhere else.
-/

namespace Stackless.Json

/-- A JSON value as it was written. -/
inductive Value where
  | null
  | bool (b : Bool)
  /-- A number written as an integer; `-0` is not one. -/
  | int (n : Int)
  /-- A number written in any other way, kept as it stands. -/
  | real (spelling : String)
  /-- A string, or `none` for a literal that stands for no text. -/
  | string (text : Option String)
  | array (items : List Value)
  /-- The fields in order, repeated names included. -/
  | object (fields : List (Option String × Value))
  deriving Inhabited

namespace Value

/-- A string value. -/
def str (s : String) : Value := .string (some s)

/-- A natural number as a value. -/
def nat (n : Nat) : Value := .int n

/-- An object with the given fields. -/
def obj (fields : List (String × Value)) : Value :=
  .object (fields.map fun f => (some f.1, f.2))

/-- A value that may be absent, absence written `null`. -/
def ofOption {α : Type} (f : α → Value) : Option α → Value
  | none => .null
  | some a => f a

end Value

end Stackless.Json
