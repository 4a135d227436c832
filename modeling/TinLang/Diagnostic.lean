import TinLang.Syntax.Position

/-!
# Diagnostics

A diagnostic is one error message at a place in a named file. A report lists diagnostics in the
order of file, line and column; those at one place keep the order in which they were found.
-/
namespace TinLang

/-- One error tied to a place in a source file. -/
structure Diagnostic where
  /-- The name of the source file. -/
  file : Text
  /-- The line of the place, counted from one. -/
  line : Int
  /-- The column of the place, counted from one. -/
  column : Int
  /-- What is wrong there. -/
  message : Text
  deriving DecidableEq, Repr, Inhabited

namespace Diagnostic

/-- An error at a position of a file. -/
def located (file : Text) (position : Position) (message : Text) : Diagnostic :=
  ⟨file, position.line, position.column, message⟩

/-- The place of the left diagnostic comes before that of the right one. -/
def before (left right : Diagnostic) : Bool :=
  if left.file ≠ right.file then left.file.precedes right.file
  else if left.line ≠ right.line then decide (left.line < right.line)
  else decide (left.column < right.column)

/-- The diagnostics in the order of their places, a stable order. -/
def sort (diagnostics : List Diagnostic) : List Diagnostic :=
  diagnostics.mergeSort fun left right => !before right left

/-- One line of a report. -/
def describe (diagnostic : Diagnostic) : Text :=
  "ERROR " ++ diagnostic.file ++ ":" ++ Text.ofInt diagnostic.line ++ ":" ++
    Text.ofInt diagnostic.column ++ ": " ++ diagnostic.message

/-- The report of some diagnostics: their sorted lines, each ended. -/
def report (diagnostics : List Diagnostic) : Text :=
  (sort diagnostics).flatMap fun diagnostic => diagnostic.describe ++ "\n"

end Diagnostic

end TinLang
