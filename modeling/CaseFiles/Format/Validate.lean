import CaseFiles.Format.Reading
import CaseFiles.Setting

/-!
# Formats that locate test cases

A format locates test cases if it has a place for the name, `%s`, and one for the extension, `%e`,
and no other field. Of several faults the first in this order is told: the format is empty, its
end is malformed, it has a foreign field (the first one), `%s` is missing, `%e` is missing.
-/

namespace CaseFiles.Format

/-- The format that is used when none is given. -/
def default : Text := ['%', 's', '.', '%', 'e']

/-- The keys of a test case's name and extension. -/
def caseKeys : List Char := ['e', 's']

/-- Checks that a format locates test cases. -/
def validate (f : Text) : Except Error Unit := do
  if f.isEmpty then throw (.invalidFormat f .notText)
  let used ← keys f
  match used.find? (· ∉ caseKeys) with
  | some key => throw (.undefinedPlaceholder [key] f)
  | none =>
    if 's' ∉ used then throw (.invalidFormat f .noName)
    if 'e' ∉ used then throw (.invalidFormat f .noExt)

/-- The text that a setting gives for the format. -/
def textOf : Setting → Except Error Text
  | .text f => .ok f
  | other => .error (.invalidFormat other.display .notText)

/-- Checks that a setting gives a format that locates test cases. -/
def check (s : Setting) : Except Error Unit := do validate (← textOf s)

end CaseFiles.Format
