import Stackless.Model.Basic

/-!
# How model words are spelled

Types, kinds of storage and operators have fixed names in a program model.
Each enumeration lists its members with their names once; writing looks a
member up in the list, reading looks a name up.
-/

namespace Stackless.Model

/-- The members of an enumeration with their names. -/
abbrev Spelling (α : Type) := List (String × α)

namespace Spelling

variable {α : Type}

/-- The member of a name. -/
def read? (s : Spelling α) (name : String) : Option α :=
  s.lookup name

/-- The name of a member; a member that is not listed has the empty name. -/
def write [DecidableEq α] (s : Spelling α) (a : α) : String :=
  match s.find? (fun e => e.2 = a) with
  | some e => e.1
  | none => ""

end Spelling

/-- The names of the types. -/
def ValueType.spelling : Spelling ValueType :=
  [("int", .int), ("bool", .bool), ("ram", .ram), ("rom", .rom)]

/-- The names of the kinds of storage. -/
def Storage.spelling : Spelling Storage :=
  [("register", .register), ("ram", .ram), ("rom", .rom), ("bit", .bit), ("port", .port)]

/-- The names of the operations. -/
def MathOp.spelling : Spelling MathOp :=
  [("add", .add), ("sub", .sub), ("mul", .mul), ("div", .div), ("mod", .mod), ("shr", .shr),
    ("shl", .shl), ("neg", .neg), ("and", .and), ("or", .or), ("xor", .xor), ("not", .not),
    ("logical_and", .logicalAnd), ("logical_or", .logicalOr), ("logical_not", .logicalNot)]

/-- The names of the comparisons. -/
def CompareOp.spelling : Spelling CompareOp :=
  [("eq", .eq), ("ne", .ne), ("gt", .gt), ("lt", .lt), ("ge", .ge), ("le", .le)]

/-- Reading undoes writing for types. -/
theorem ValueType.read?_write (t : ValueType) : spelling.read? (spelling.write t) = some t := by
  cases t <;> rfl

/-- Reading undoes writing for kinds of storage. -/
theorem Storage.read?_write (s : Storage) : spelling.read? (spelling.write s) = some s := by
  cases s <;> rfl

/-- Reading undoes writing for operations. -/
theorem MathOp.read?_write (o : MathOp) : spelling.read? (spelling.write o) = some o := by
  cases o <;> rfl

/-- Reading undoes writing for comparisons. -/
theorem CompareOp.read?_write (o : CompareOp) : spelling.read? (spelling.write o) = some o := by
  cases o <;> rfl

end Stackless.Model
