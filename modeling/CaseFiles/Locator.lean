import CaseFiles.Backup
import CaseFiles.Candidates
import CaseFiles.Pairing

/-!
# Locators

A locator knows a directory and a format that has been checked, and finds the test cases there.
-/

namespace CaseFiles

/-- Where test cases are to be found and how their files are named. -/
structure Locator where
  directory : Text
  format : Text
  directory_ne_nil : directory ≠ []
  valid : Format.validate format = .ok ()

namespace Locator

/-- The directory that a setting gives. -/
def directoryOf : Setting → Except Error { t : Text // t ≠ [] }
  | .text t => if h : t ≠ [] then .ok ⟨t, h⟩ else .error .noDirectory
  | _ => .error .noDirectory

/-- The format that a setting gives; without one it is the default. -/
def formatOf : Setting → Except Error Text
  | .missing | .null => .ok Format.default
  | s => Format.textOf s

/-- Makes a locator. A fault of the directory is told before one of the format. -/
def make (directory format : Setting) : Except Error Locator := do
  let ⟨dir, hd⟩ ← directoryOf directory
  let f ← formatOf format
  match h : Format.validate f with
  | .ok () => return ⟨dir, f, hd, h⟩
  | .error cause => throw cause

variable (loc : Locator) (d : Disk)

/-- The candidate files, backups among them. -/
def glob : Traced (List Text) := candidates d loc.directory loc.format

/-- Pairs the files at the given paths, backup and hidden ones left out. -/
def relate (paths : List Text) : Traced (List Case) :=
  (dropBackups paths).bind (pair d loc.directory loc.format)

/-- Finds the candidate files and pairs them. -/
def discover : Traced (List Case) := (loc.glob d).bind (loc.relate d)

/-- Where a file of a test case belongs. -/
def pathFor (name : Text) (ext : Ext) : Except Error Text :=
  Format.pathFor loc.directory loc.format name ext

end Locator

end CaseFiles
