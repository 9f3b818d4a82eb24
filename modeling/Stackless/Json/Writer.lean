import Stackless.Json.Value

/-!
# Writing JSON

Values are written without blanks.  In a string, the quote, the backslash and
the control characters are escaped, by their short form where they have one;
every other character stands for itself.
-/

namespace Stackless.Json

/-- The hexadecimal digit of a number below 16, in lower case. -/
def hexDigit (n : Nat) : Char :=
  if n < 10 then Char.ofNat ('0'.toNat + n) else Char.ofNat ('a'.toNat + (n - 10))

/-- A character as it is written inside a string literal. -/
def escape (c : Char) : List Char :=
  match c with
  | '"' => ['\\', '"']
  | '\\' => ['\\', '\\']
  | '\n' => ['\\', 'n']
  | '\r' => ['\\', 'r']
  | '\t' => ['\\', 't']
  | '\x08' => ['\\', 'b']
  | '\x0c' => ['\\', 'f']
  | c =>
    if c.toNat < 0x20 then
      ['\\', 'u', '0', '0', hexDigit (c.toNat / 16), hexDigit (c.toNat % 16)]
    else [c]

/-- A text as a string literal, quotes included. -/
def quote (s : String) : List Char :=
  '"' :: s.toList.flatMap escape ++ ['"']

/-- A string literal; one that stands for no text is written as half of a
surrogate pair. -/
def writeText : Option String → List Char
  | some s => quote s
  | none => "\"\\ud800\"".toList

mutual

/-- The characters of a value. -/
def write : Value → List Char
  | .null => "null".toList
  | .bool true => "true".toList
  | .bool false => "false".toList
  | .int n => (toString n).toList
  | .real spelling => spelling.toList
  | .string text => writeText text
  | .array vs => '[' :: writeItems vs ++ [']']
  | .object fs => '{' :: writeFields fs ++ ['}']

/-- Items, with commas between them. -/
def writeItems : List Value → List Char
  | [] => []
  | [v] => write v
  | v :: vs => write v ++ ',' :: writeItems vs

/-- Fields, with commas between them. -/
def writeFields : List (Option String × Value) → List Char
  | [] => []
  | [(name, v)] => writeText name ++ ':' :: write v
  | (name, v) :: fs => writeText name ++ ':' :: write v ++ ',' :: writeFields fs

end

/-- The text of a value. -/
def Value.toText (v : Value) : String :=
  String.ofList (write v)

end Stackless.Json
