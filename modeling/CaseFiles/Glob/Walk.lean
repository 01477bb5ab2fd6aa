import CaseFiles.FileTree.Lookup
import CaseFiles.Glob.Pattern

/-!
# Globbing

A glob is walked through the disk from the directory where it starts. Places are kept as they are
spelled, so a directory that is reached through a link keeps the name of the link. Only what is not
a directory is found; a link is found as such, whatever it points to. A globstar takes real
directories without a leading dot. In a linked directory that it meets, the segments after it are
tried once, unless the glob begins with it; a glob that begins with it does not enter a link at
all.
-/

namespace CaseFiles.Glob

/-- How the next segment is taken: by going on from a place, or only by looking through the names
in a directory. -/
inductive Mode where
  /-- Going on; `first` if nothing of the glob has been taken yet. -/
  | enter (first : Bool)
  | list
  deriving DecidableEq, Repr

/-- Whether an entry is no directory. -/
def isLeaf (k : Entry) : Bool := k != .dir

/-- Whether a glob may go on from an entry: a link may lead to a directory. -/
def mayEnter (k : Entry) : Bool := k != .file

/-- Whether an entry is a symbolic link. -/
def isLink : Entry → Bool
  | .link _ => true
  | _ => false

/-- The place itself, if something other than a directory is there. -/
def leafAt (t : FileTree) (l : Location) : List Location :=
  match t.entry? l with
  | .ok k => if isLeaf k then [l] else []
  | .error _ => []

/-- Whether there is a link at a place. -/
def linkAt (t : FileTree) (l : Location) : Bool :=
  match t.entry? l with
  | .ok k => isLink k
  | .error _ => false

/-- One step by name, without looking at the disk. -/
def stepTo (l : Location) (n : Text) : Location :=
  if n = [] ∨ n = Path.dot then l else if n = Path.dotDot then l.dropLast else l ++ [n]

/-- The place and the real directories below it that can be reached without a leading dot. -/
def reach (t : FileTree) (l : Location) : List Location :=
  match t.find l with
  | .error _ => [l]
  | .ok r =>
    l :: t.entries.filterMap fun (place, k) =>
      let way := place.drop r.length
      if k = .dir ∧ r <+: place ∧ way ≠ [] ∧ way.all (!isHidden ·) then some (l ++ way) else none

/-- What a globstar finds. If it is the last segment it finds the place itself and all that lies in
the directories it takes. Otherwise `go` finds with the segments after it; `up` is given if the next
of these is `..`, and looks through a directory for what comes after that. -/
def star (t : FileTree) (last : Bool) (go : Mode → Location → List Location)
    (up : Option (Location → List Location)) (mode : Mode) (l : Location) : List Location :=
  let here :=
    match mode with
    | .list => []
    | .enter _ => if last then leafAt t l else up.elim [] fun look => look l.dropLast
  let taken := if mode = .enter true ∧ linkAt t l then [] else reach t l
  here ++ taken.flatMap fun d =>
    let names := t.list d
    let direct :=
      if last then
        names.filterMap fun (n, k) => if isLeaf k ∧ !isHidden n then some (d ++ [n]) else none
      else go .list d
    let linked :=
      if last ∨ mode = .enter true then []
      else
        names.flatMap fun (n, k) =>
          if isLink k ∧ !isHidden n then go (.enter false) (d ++ [n]) else []
    let above :=
      match up with
      | none => []
      | some look =>
        (if d = l then [] else look d.dropLast)
          ++ if names.isEmpty then [] else go (.enter false) d
    direct ++ linked ++ above

/-- The places that a glob finds when it goes on from a place. -/
def walk (t : FileTree) : List Segment → Mode → Location → List Location
  | [], _, _ => []
  | .globstar :: rest, mode, l =>
    let up :=
      match rest with
      | .literal n :: more => if n = Path.dotDot then some (walk t more .list) else none
      | _ => none
    star t rest.isEmpty (walk t rest) up mode l
  | .literal n :: rest, .enter _, l =>
    if rest.isEmpty then
      if isPlain n then leafAt t (l ++ [n]) else []
    else walk t rest (.enter false) (stepTo l n)
  | s :: rest, _, l =>
    (t.list l).flatMap fun (n, k) =>
      if s.test n then
        if rest.isEmpty then (if isLeaf k then [l ++ [n]] else [])
        else if mayEnter k then walk t rest (.enter false) (l ++ [n])
        else []
      else []

/-- The places that a glob finds from a directory. Nothing is found from a directory that is not
there. -/
def find (t : FileTree) (directory : Location) (p : Pattern) : List Location :=
  if p.absolute then walk t p.segments (.enter false) []
  else
    match t.entry? directory with
    | .error .missing | .error .notDirectory => []
    | _ => walk t p.segments (.enter true) directory

/-- How many names two locations share from the root on. -/
def shared : Location → Location → Nat
  | a :: as, b :: bs => if a = b then shared as bs + 1 else 0
  | _, _ => 0

/-- The path of a place, seen from a directory. A place that shares nothing with the directory is
given from the root. -/
def relative (directory l : Location) : Text :=
  let k := shared directory l
  if k = 0 ∧ directory ≠ [] then Path.ofLocation l
  else
    let way := List.replicate (directory.length - k) Path.dotDot ++ l.drop k
    if way.isEmpty then Path.dot else Path.joinSlash way

/-- The paths that a written glob finds from a directory, in order and without repetition. -/
def search (t : FileTree) (directory : Location) (g : Text) : List Text :=
  let found := (patterns g).flatMap fun p =>
    (find t directory p).map fun l => if p.absolute then Path.ofLocation l else relative directory l
  found.eraseDups.mergeSort Text.unitsLe

end CaseFiles.Glob
