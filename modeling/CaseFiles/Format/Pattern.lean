import CaseFiles.Format.Render
import CaseFiles.Regex.Quote

/-!
# Formats as regular expressions

The pattern of a format has a named group around a fragment where a field is used first, and a
reference back to that group wherever it is used again, so that all uses of one field stand for the
same text. A group is named after the code of its key, since a key need not be a letter.
-/

namespace CaseFiles

/-- A format as a regular expression without anchors, and the group of each of its fields. -/
structure Pattern where
  source : Text
  groups : List (Char × Text)
  deriving DecidableEq, Repr

namespace Format

/-- The name of the group that captures a field. -/
def groupName (key : Char) : Text := 'p' :: Nat.toDigits 10 key.toNat

/-- The group around the fragment of a field. -/
def groupSource (key : Char) (fragment : Text) : Text :=
  ['(', '?', '<'] ++ groupName key ++ ['>'] ++ fragment ++ [')']

/-- The reference back to the group of a field. -/
def againSource (key : Char) : Text := ['\\', 'k', '<'] ++ groupName key ++ ['>']

/-- The pattern of a format whose fields have the fragments of a table. -/
def pattern (table : Table Text) (f : Text) : Except Error Pattern := do
  let source ← read (fun seen part =>
    match part with
    | .text c => .ok (Regex.quoteChar c)
    | .field key =>
      if key ∈ seen then .ok (againSource key)
      else (table.find [key] f).map (groupSource key)) f
  return ⟨source, (fieldKeys (parts f)).map fun key => (key, groupName key)⟩

end Format

end CaseFiles
