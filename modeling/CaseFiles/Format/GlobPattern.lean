import CaseFiles.Format.Render
import CaseFiles.Glob.Quote

/-!
# Formats as globs

The glob of a format has a star in the place of each field and keeps all other characters literal.
-/

namespace CaseFiles.Format

/-- A name and an extension may be anything. -/
def globTable : Table Text := [(['s'], ['*']), (['e'], ['*'])]

/-- The glob that finds the candidates for a format. -/
def globPattern (f : Text) : Except Error Text :=
  renderWith Glob.quoteChar globTable f

end CaseFiles.Format
