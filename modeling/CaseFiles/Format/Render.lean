import CaseFiles.Format.Reading
import CaseFiles.Path

/-!
# Rendering

Rendering a format puts a value in the place of each field. The values come from a table; a field
that the table does not know is an error, whatever comes after it in the format.
-/

namespace CaseFiles

/-- Values by their keys. The first entry of a key counts. -/
abbrev Table (α : Type) := List (Text × α)

/-- The value of a key in a table that the given format is read with. -/
def Table.find {α : Type} (table : Table α) (key format : Text) : Except Error α :=
  match table.lookup key with
  | some v => .ok v
  | none => .error (.undefinedPlaceholder key format)

namespace Format

/-- Renders into any alphabet in which characters can be spelled. -/
def renderWith {α : Type} (spell : Char → List α) (table : Table (List α)) (f : Text) :
    Except Error (List α) :=
  read (fun _ part =>
    match part with
    | .text c => .ok (spell c)
    | .field key => table.find [key] f) f

/-- Refuses a table in which the percent sign does not stand for itself. -/
def checkPercent (table : Table Text) : Except Error Unit :=
  match table.lookup ['%'] with
  | some v => if v = ['%'] then .ok () else .error (.percentRedefined v)
  | none => .ok ()

/-- The text that a format becomes with the values of a table. -/
def render (table : Table Text) (f : Text) : Except Error Text := do
  checkPercent table
  renderWith (fun c => [c]) table f

/-- The table that names one file of one test case. -/
def caseTable (name : Text) (ext : Ext) : Table Text := [(['s'], name), (['e'], ext.text)]

/-- The path below a directory at which a file of a test case lives. -/
def pathFor (directory f name : Text) (ext : Ext) : Except Error Text := do
  let r ← render (caseTable name ext) f
  return Path.join directory r

end Format

end CaseFiles
