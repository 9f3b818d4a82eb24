import Stackless.Diagnostic.Error

/-!
# Error reports

A report is what a person reads when a build fails: for every error its kind
and wording, then an arrow line with its position if it has one, then a blank
line; and at the end how many errors there were.
-/

namespace Stackless

/-- Errors to be shown, with the word that introduces each of them. -/
structure Report where
  kind : String
  errors : List (Located CompileError)

namespace Report

/-- The report of one error, under the given kind word. -/
def single (kind : String) (e : Located CompileError) : Report :=
  ⟨kind, [e]⟩

/-- The report of an error: internal errors are introduced as such. -/
def ofError (e : Located CompileError) : Report :=
  single (if e.value.isInternal then "internal error" else "error") e

/-- The paragraph of one error. -/
def paragraph (kind : String) (e : Located CompileError) : String :=
  let arrow := match e.position with
    | some p => " --> " ++ p.text ++ "\n"
    | none => ""
  kind ++ ": " ++ e.value.message ++ "\n" ++ arrow ++ "\n"

/-- The last line: the number of errors. -/
def summary (n : Nat) : String :=
  "Build failed with " ++ toString n ++ (if n = 1 then " error\n" else " errors\n")

/-- The text of a report. -/
def text (r : Report) : String :=
  match r.errors with
  | [] => "No errors were reported\n"
  | errors => String.join (errors.map (paragraph r.kind)) ++ summary errors.length

end Report

end Stackless
