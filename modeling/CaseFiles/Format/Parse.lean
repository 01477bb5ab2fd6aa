import CaseFiles.Format.Pattern
import CaseFiles.Regex.Matcher

/-!
# Reading texts with a format

A text conforms to a format if the whole of it matches the pattern of the format; the fields are
then what the groups have kept. A field whose group has not taken part is empty. Fields are rows of
code units, since a fragment may cut a surrogate pair in half.
-/

namespace CaseFiles

/-- What a format finds in a text: the units of each field, in the order of first use. -/
abbrev Fields := List (Char × List CodeUnit)

namespace Regex

/-- An expression between the start and the end of the text. -/
def anchored (source : Text) : Text := '^' :: source ++ ['$']

/-- What the named groups of a written expression keep when it is searched for in a text. -/
def capture (source : Text) (text : List CodeUnit) :
    Except Error (Option (Text → Option (List CodeUnit))) :=
  match parse source.units with
  | none => .error .badPattern
  | some parsed =>
    .ok ((parsed.regex.exec text).map fun kept name =>
      (parsed.names.lookup name).bind fun i => kept.lookup i)

end Regex

namespace Format

/-- The fields of a text that conforms to a format. -/
def parse (table : Table Text) (f text : Text) : Except Error (Option Fields) := do
  let p ← pattern table f
  let kept ← Regex.capture (Regex.anchored p.source) text.units
  return kept.map fun of => p.groups.map fun (key, group) => (key, (of group).getD [])

end Format

end CaseFiles
