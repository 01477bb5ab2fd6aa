import CaseFiles.Event
import CaseFiles.Path

/-!
# Backup and hidden files

Editors leave files such as `1~.in`, `#1#.in` or `.1.in` next to the real ones. They are told from
the real ones by the stem of the path, which is its base name without the last extension.
-/

namespace CaseFiles

/-- Whether a path names a backup or hidden file. -/
def isBackup (p : Text) : Bool :=
  let stem := Path.stem p
  stem.getLast? == some '~' || (stem.head? == some '#' && stem.getLast? == some '#')
    || stem.head? == some '.'

/-- The paths that are no backup or hidden files; each of the others is told of. -/
def dropBackups (paths : List Text) : Traced (List Text) :=
  .telling ((paths.filter isBackup).map .ignored) (paths.filter (!isBackup ·))

end CaseFiles
