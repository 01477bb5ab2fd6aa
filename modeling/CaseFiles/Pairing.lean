import CaseFiles.Event
import CaseFiles.Format.Validate
import CaseFiles.Recognize

/-!
# Pairing files

The files of one name make a test case. A file that does not fit the format, a second file for one
slot, an output without an input and an empty result each end the run without any test cases.
-/

namespace CaseFiles

/-- The files of one name that have been found so far. -/
structure Filed where
  name : Text
  input : Option Text
  output : Option Text
  deriving DecidableEq, Repr

namespace Filed

/-- The file with an extension. -/
def get (g : Filed) : Ext → Option Text
  | .input => g.input
  | .output => g.output

/-- Puts a file into its place. -/
def set (g : Filed) (path : Text) : Ext → Filed
  | .input => { g with input := some path }
  | .output => { g with output := some path }

end Filed

/-- The file in a slot. -/
def inSlot (gs : List Filed) (s : Slot) : Option Text :=
  (gs.find? (·.name == s.name)).bind (·.get s.ext)

/-- Puts a file into a slot; a new name comes last. -/
def fileIn (s : Slot) (path : Text) : List Filed → List Filed
  | [] => [Filed.set ⟨s.name, none, none⟩ path s.ext]
  | g :: gs => if g.name = s.name then g.set path s.ext :: gs else g :: fileIn s path gs

/-- Files all paths, in order. -/
def fileAll (d : Disk) (directory f : Text) (gs : List Filed) : List Text → Traced (List Filed)
  | [] => .telling [] gs
  | p :: ps =>
    match recognize d directory f p with
    | .error cause => .quiet (.error cause)
    | .ok none => .fail (.unrecognizedFile p f)
    | .ok (some s) =>
      match inSlot gs s with
      | some q => .quiet (.error (.duplicateFile s.name s.ext q p))
      | none =>
        (Traced.telling [.filed p s.ext s.name] (fileIn s p gs)).bind fun gs =>
          fileAll d directory f gs ps

/-- The test case of the files of one name; there is none without an input. -/
def Filed.toCase (g : Filed) : Except Error Case :=
  match g.input with
  | some input => .ok ⟨g.name, input, g.output⟩
  | none => .error (.danglingOutput g.name (g.output.getD []))

/-- The test cases of all names, at least one. -/
def toCases (directory f : Text) (gs : List Filed) : Except Error (List Case) := do
  let cases ← gs.mapM Filed.toCase
  if cases.isEmpty then throw (.noCases directory f)
  return cases

/-- Pairs the files at the given paths into test cases, in the order in which their names first
appear. -/
def pair (d : Disk) (directory f : Text) (paths : List Text) : Traced (List Case) :=
  (Traced.quiet (Format.validate f)).bind fun _ =>
    (fileAll d directory f [] paths).bind fun gs =>
      match toCases directory f gs with
      | .ok cases => .telling [.counted cases.length] cases
      | .error cause => .fail cause

end CaseFiles
