import CaseFiles.Error
import CaseFiles.FileTree.Lookup

/-!
# Resolving paths

The real place of a location has no links on the way to it. A link is replaced by its target, read
without looking at the disk from where the link really is, and the target is resolved in turn. What
does not exist yet keeps its own name below the deepest place that does.
-/

namespace CaseFiles

namespace FileTree

/-- Goes on from a real place. A link must lead somewhere; `follow` resolves its target. -/
def realFrom (t : FileTree) (follow : Location → Except Fault Location) :
    Location → List Text → Except Fault Location
  | l, [] => .ok l
  | l, s :: rest =>
    match t.at? (l ++ [s]) with
    | some (.link target) => do
      let _ ← t.find (l ++ [s])
      let r ← follow (Path.locate l target)
      t.realFrom follow r rest
    | some _ => t.realFrom follow (l ++ [s]) rest
    | none => .error (if t.isDir l then .missing else .notDirectory)

/-- The real place of a location, where links may point to links so many times. -/
def realDeep (t : FileTree) : Nat → Location → Except Fault Location
  | 0 => t.realFrom (fun _ => .error .loop) []
  | n + 1 => t.realFrom (t.realDeep n) []

/-- How many links there are. -/
def linkCount (t : FileTree) : Nat :=
  t.entries.countP fun e =>
    match e.2 with
    | .link _ => true
    | _ => false

/-- The real place of a location. Links that point to each other more often than there are links
lead round in a circle. -/
def real (t : FileTree) (l : Location) : Except Fault Location := t.realDeep t.linkCount l

/-- The real place of the deepest part of a location that exists, with the names after it. The
location is given from its end. -/
def settleUp (t : FileTree) : List Text → Except Fault Location
  | [] => .ok []
  | n :: up =>
    match t.real (n :: up).reverse with
    | .ok r => .ok r
    | .error .loop => .error .loop
    | .error _ => (t.settleUp up).map (· ++ [n])

/-- The real place of a location as far as it exists. -/
def settle (t : FileTree) (l : Location) : Except Fault Location := t.settleUp l.reverse

end FileTree

/-- A disk as a program sees it: the tree, and where the program stands in it. -/
structure Disk where
  tree : FileTree
  here : Location
  named : ∀ n ∈ here, Path.isName n = true

namespace Disk

/-- The location that a path names. -/
def locate (d : Disk) (p : Text) : Location := Path.locate d.here p

/-- The place of a path, real as far as it exists. -/
def settle (d : Disk) (p : Text) : Except Error Location :=
  if (d.locate p).any (·.contains '\x00') then .error .nulInPath
  else
    match d.tree.settle (d.locate p) with
    | .ok l => .ok l
    | .error _ => .error .linkLoop

/-- The absolute path of a path's place. -/
def resolve (d : Disk) (p : Text) : Except Error Text := (d.settle p).map Path.ofLocation

end Disk

end CaseFiles
