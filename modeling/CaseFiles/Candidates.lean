import CaseFiles.Event
import CaseFiles.FileTree.Resolve
import CaseFiles.Format.GlobPattern
import CaseFiles.Glob.Walk

/-!
# Candidate files

The candidates for a format are the files that its glob finds below a directory, sorted before the
directory is put in front of them.
-/

namespace CaseFiles

/-- The paths of the candidates below a directory; each is told of. -/
def candidates (d : Disk) (directory f : Text) : Traced (List Text) :=
  match Format.globPattern f with
  | .error cause => .quiet (.error cause)
  | .ok g =>
    let paths := (Glob.search d.tree (d.locate directory) g).map (Path.join directory)
    .telling (paths.map .globbed) paths

end CaseFiles
