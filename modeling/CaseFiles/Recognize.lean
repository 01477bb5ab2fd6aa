import CaseFiles.FileTree.Resolve
import CaseFiles.Format.Parse

/-!
# Recognising files

A file belongs to a test case if its resolved path is that of the directory, a slash, and what the
format matches. Both paths are resolved first, so that different spellings of one file agree.
-/

namespace CaseFiles

/-- The place of a file among the test cases. -/
structure Slot where
  name : Text
  ext : Ext
  deriving DecidableEq, Repr

/-- A name is anything but empty or broken into lines; an extension is one of the two. -/
def slotTable : Table Text :=
  [(['s'], ['.', '+']), (['e'], Ext.input.text ++ '|' :: Ext.output.text)]

/-- The resolved path of a directory with a slash at its end. -/
def asParent (root : Text) : Text := if root.getLast? = some '/' then root else root ++ ['/']

/-- The slot of the file at a path, if the format has a place for both parts of a slot and the path
conforms to it. -/
def recognize (d : Disk) (directory f path : Text) : Except Error (Option Slot) := do
  let p ← Format.pattern slotTable f
  match p.groups.lookup 's', p.groups.lookup 'e' with
  | some nameGroup, some extGroup =>
    let root ← d.resolve directory
    let file ← d.resolve path
    let source := Regex.anchored (Regex.quote (asParent root) ++ p.source)
    let kept ← Regex.capture source file.units
    return do
      let of ← kept
      let ext ← Ext.ofText? (← Text.ofUnits? (← of extGroup))
      let name ← Text.ofUnits? (← of nameGroup)
      return ⟨name, ext⟩
  | _, _ => return none

end CaseFiles
