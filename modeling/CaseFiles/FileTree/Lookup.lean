import CaseFiles.FileTree.Basic

/-!
# Looking things up

The disk is walked segment by segment: `..` goes to the parent of where the walk really is, and a
symbolic link is replaced by its target. At most forty links are followed in one walk.
-/

namespace CaseFiles

/-- Why a walk ends too early. -/
inductive Fault where
  /-- There is nothing of that name. -/
  | missing
  /-- Something that is no directory is used as one. -/
  | notDirectory
  /-- Too many links were followed. -/
  | loop
  deriving DecidableEq, Repr

/-- Where a walk ends. -/
inductive Walk where
  /-- At this place, which is there. -/
  | found (l : Location)
  /-- In this directory, where there is nothing of the last name. -/
  | vacant (l : Location) (name : Text)
  | fault (f : Fault)
  deriving DecidableEq, Repr

namespace FileTree

/-- Walks on from a directory. A link that is not at the end of the way, or that is but is to be
followed too, is handed to `follow` with the way that is left. -/
def walkFrom (t : FileTree) (followLast : Bool) (follow : Location → List Text → Walk) :
    Location → List Text → Walk
  | l, [] => .found l
  | l, s :: rest =>
    if s = [] ∨ s = Path.dot then t.walkFrom followLast follow l rest
    else if s = Path.dotDot then t.walkFrom followLast follow l.dropLast rest
    else
      match t.at? (l ++ [s]) with
      | some .dir => t.walkFrom followLast follow (l ++ [s]) rest
      | some .file => if rest.isEmpty then .found (l ++ [s]) else .fault .notDirectory
      | some (.link target) =>
        if rest.isEmpty && !followLast then .found (l ++ [s])
        else follow (if Path.isAbsolute target then [] else l) (Path.splitSlash target ++ rest)
      | none => if rest.isEmpty then .vacant l s else .fault .missing

/-- Walks on from a directory, with the number of links that may be followed. -/
def walk (t : FileTree) (followLast : Bool) : Nat → Location → List Text → Walk
  | 0 => t.walkFrom followLast fun _ _ => .fault .loop
  | n + 1 => t.walkFrom followLast (t.walk followLast n)

/-- How many links one walk may follow. -/
def mostLinks : Nat := 40

/-- Walks from the root, to what a link at the end points to. -/
def locate (t : FileTree) (way : List Text) : Walk := t.walk true mostLinks [] way

/-- The place of what is at the end of a way, links followed. -/
def find (t : FileTree) (way : List Text) : Except Fault Location :=
  match t.locate way with
  | .found l => .ok l
  | .vacant _ _ => .error .missing
  | .fault f => .error f

/-- What is at the end of a way, a link itself if it is one. -/
def entry? (t : FileTree) (way : List Text) : Except Fault Entry :=
  match t.walk false mostLinks [] way with
  | .found l => (t.at? l).elim (.error .missing) .ok
  | .vacant _ _ => .error .missing
  | .fault f => .error f

/-- The names in the directory at the end of a way; none if there is no directory. -/
def list (t : FileTree) (way : List Text) : List (Text × Entry) :=
  match t.find way with
  | .ok l => t.children l
  | .error _ => []

/-- Makes the directories that are missing on a way, which goes on from one where none is. -/
def makeDirs (t : FileTree) (before : List Text) : List Text → FileTree
  | [] => t
  | s :: rest =>
    match t.locate (before ++ [s]) with
    | .vacant l n => (t.insert l n .dir).makeDirs (before ++ [s]) rest
    | _ => t.makeDirs (before ++ [s]) rest

/-- Makes an entry at the end of a way, and the directories before it. A file is made where a link
at the end points to. -/
def make (t : FileTree) (way : List Text) (k : Entry) : FileTree :=
  let t := t.makeDirs [] way.dropLast
  match t.walk (k == .file) mostLinks [] way with
  | .vacant l n => t.insert l n k
  | _ => t

/-- Takes away what is at the end of a way, a link itself if it is one, and all below it. -/
def remove (t : FileTree) (way : List Text) : FileTree :=
  match t.walk false mostLinks [] way with
  | .found l => t.erase l
  | _ => t

end FileTree

end CaseFiles
