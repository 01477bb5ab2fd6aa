import CaseFiles.Locator

/-!
# Requests

A locator keeps nothing from one use to the next. It may be used again and again while others change
the disk in between; each use sees the disk as it is then, and one that fails does not end the run.
-/

namespace CaseFiles.Locator

/-- A use of a locator, or what happens between two of them. -/
inductive Request where
  | glob
  | relate (paths : List Text)
  | discover
  | pathFor (name : Text) (ext : Ext)
  /-- The disk is changed by someone else. -/
  | change (effect : Disk → Disk)

/-- What comes of a request. -/
inductive Reply where
  | paths (found : Traced (List Text))
  | cases (found : Traced (List Case))
  | path (p : Except Error Text)
  | changed

variable (loc : Locator)

/-- Serves one request. -/
def serve (d : Disk) : Request → Reply × Disk
  | .glob => (.paths (loc.glob d), d)
  | .relate paths => (.cases (loc.relate d paths), d)
  | .discover => (.cases (loc.discover d), d)
  | .pathFor name ext => (.path (loc.pathFor name ext), d)
  | .change effect => (.changed, effect d)

/-- Serves requests one after the other. -/
def serveAll (d : Disk) : List Request → List Reply
  | [] => []
  | q :: qs => (loc.serve d q).1 :: serveAll (loc.serve d q).2 qs

end CaseFiles.Locator
