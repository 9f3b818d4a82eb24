/-!
# Columns of text

Listings line their columns up with blanks.  Widths count characters; a text
that is as wide as its column or wider is left as it is.
-/

namespace Stackless.Text

/-- A number of blanks. -/
def blanks (n : Nat) : String :=
  String.ofList (List.replicate n ' ')

/-- A text at the left of its column. -/
def alignLeft (width : Nat) (s : String) : String :=
  s ++ blanks (width - s.toList.length)

/-- A text at the right of its column. -/
def alignRight (width : Nat) (s : String) : String :=
  blanks (width - s.toList.length) ++ s

end Stackless.Text
