import CaseFiles.FileTree.Resolve

/-!
# Listings

A disk can be built from a list of its entries. An entry is written on a line: a path for a file, a
path with a slash at its end for a directory, and a path, an arrow and a target for a symbolic link.
Paths are relative to where the program stands. Entries are made in order, with the directories
before them, so that a path may go through a link that has been made before it.
-/

namespace CaseFiles

/-- An entry and the path at which it is to be made. -/
structure Listed where
  path : Text
  entry : Entry
  deriving DecidableEq, Repr

namespace Listed

/-- A path with a slash at its end is a directory, any other one a file. -/
def ofPath (p : Text) : Listed := ⟨p, if p.getLast? = some '/' then .dir else .file⟩

/-- Cuts a line at the first arrow in it, where the line so far is given from its end. -/
def cutArrow : Text → Text → Option (Text × Text)
  | before, ' ' :: '-' :: '>' :: ' ' :: rest => some (before.reverse, rest)
  | before, c :: rest => cutArrow (c :: before) rest
  | _, [] => none

/-- Reads a line of a listing. -/
def ofLine (line : Text) : Listed :=
  match cutArrow [] line with
  | some (p, target) => ⟨p, .link target⟩
  | none => ofPath line

end Listed

namespace Disk

/-- A disk with nothing on it but the way to where the program stands. -/
def bare (here : Location) (named : ∀ n ∈ here, Path.isName n = true) : Disk :=
  ⟨FileTree.empty.makeDirs [] here, here, named⟩

/-- The disk of a program that stands at the given path; names that are none are left out. -/
def standingAt (p : Text) : Disk :=
  bare ((Path.locate [] p).filter Path.isName) (by
    intro n hn
    exact (List.mem_filter.mp hn).2)

/-- Makes an entry, and the directories before it. -/
def add (d : Disk) (x : Listed) : Disk :=
  { d with tree := d.tree.make (d.locate x.path) x.entry }

/-- Takes away what is at a path, and all below it. -/
def remove (d : Disk) (p : Text) : Disk := { d with tree := d.tree.remove (d.locate p) }

/-- Makes several entries, in order. -/
def addAll (d : Disk) (xs : List Listed) : Disk := xs.foldl add d

end Disk

end CaseFiles
