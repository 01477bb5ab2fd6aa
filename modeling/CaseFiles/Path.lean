import CaseFiles.Text.Units

/-!
# Paths as texts

A path is read segment by segment between slashes. Normalising drops empty segments and `.`, and
lets `..` take back the segment before it, all without looking at the disk. A location is an
absolute normal path, kept as the names from the root down. Main statements: joining the segments
of a text gives the text back (`joinSlash_splitSlash`), and a text cut in two at a slash has the
segments of both sides (`splitSlash_append`).
-/

namespace CaseFiles

/-- A place in the file tree: the names on the way from the root. -/
abbrev Location := List Text

namespace Path

/-- The parts of a text between its slashes; there is always at least one. -/
def splitSlash : Text → List Text
  | [] => [[]]
  | c :: cs =>
    if c = '/' then [] :: splitSlash cs
    else
      match splitSlash cs with
      | [] => [[c]]
      | p :: ps => (c :: p) :: ps

/-- Puts a slash between neighbouring parts. -/
def joinSlash : List Text → Text
  | [] => []
  | [p] => p
  | p :: q :: ps => p ++ '/' :: joinSlash (q :: ps)

/-- The segment that stays where it is. -/
def dot : Text := ['.']

/-- The segment that goes to the parent. -/
def dotDot : Text := ['.', '.']

/-- Whether a text can name an entry of a directory. -/
def isName (n : Text) : Bool :=
  !n.isEmpty && n != dot && n != dotDot && !n.contains '/' && !n.contains '\x00'

/-- Puts one segment on the stack of those before it, topmost first. Above the root of an absolute
path there is nothing; a relative path keeps a `..` that takes back nothing. -/
def push (rooted : Bool) (stack : List Text) (s : Text) : List Text :=
  if s = [] ∨ s = dot then stack
  else if s = dotDot then
    match stack with
    | [] => if rooted then [] else [dotDot]
    | top :: rest => if top = dotDot then dotDot :: top :: rest else rest
  else s :: stack

/-- The segments that are left when `.`, `..` and empty ones have been worked off. -/
def reduce (rooted : Bool) (segments : List Text) : List Text :=
  (segments.foldl (push rooted) []).reverse

/-- Whether a path starts at the root. -/
def isAbsolute (p : Text) : Bool := p.head? == some '/'

/-- The normal form of a path. A slash at the end stays; the empty path is `.`. -/
def normalize (p : Text) : Text :=
  let segments := reduce (isAbsolute p) (splitSlash p)
  let trailing := if p.getLast? = some '/' then ['/'] else []
  if isAbsolute p then
    if segments.isEmpty then ['/'] else '/' :: joinSlash segments ++ trailing
  else if segments.isEmpty then '.' :: trailing
  else joinSlash segments ++ trailing

/-- One path below another, in normal form. -/
def join (a b : Text) : Text :=
  if a.isEmpty then normalize b
  else if b.isEmpty then normalize a
  else normalize (a ++ '/' :: b)

/-- The place that a path names, seen from the place `here`. -/
def locate (here : Location) (p : Text) : Location :=
  reduce true (if isAbsolute p then splitSlash p else here ++ splitSlash p)

/-- The absolute path of a place. -/
def ofLocation (l : Location) : Text := '/' :: joinSlash l

/-- The last segment of a path that is not empty; empty if there is none. -/
def baseName (p : Text) : Text :=
  ((splitSlash p).filter (!·.isEmpty)).getLast?.getD []

/-- A base name without its last extension. A dot at the very start begins no extension, and
`..` is a name. -/
def stemOf (base : Text) : Text :=
  if base = dotDot then base
  else
    match base.reverse.dropWhile (· != '.') with
    | [] => base
    | [_] => base
    | _ :: before => before.reverse

/-- The base name of a path without its last extension. -/
def stem (p : Text) : Text := stemOf (baseName p)

theorem splitSlash_ne_nil (t : Text) : splitSlash t ≠ [] := by
  cases t with
  | nil => simp [splitSlash]
  | cons c cs =>
    simp only [splitSlash]
    split
    · simp
    · split <;> simp

theorem splitSlash_slash (t : Text) : splitSlash ('/' :: t) = [] :: splitSlash t := by
  simp [splitSlash]

/-- Joining the parts of a text gives the text back. -/
theorem joinSlash_splitSlash (t : Text) : joinSlash (splitSlash t) = t := by
  induction t with
  | nil => rfl
  | cons c cs ih =>
    simp only [splitSlash]
    split
    next h =>
      cases hs : splitSlash cs with
      | nil => exact absurd hs (splitSlash_ne_nil cs)
      | cons p ps => rw [joinSlash, ← hs, ih, h, List.nil_append]
    next h =>
      cases hs : splitSlash cs with
      | nil => exact absurd hs (splitSlash_ne_nil cs)
      | cons p ps =>
        rw [hs] at ih
        cases ps with
        | nil => simpa [joinSlash] using ih
        | cons q qs => simpa [joinSlash] using ih

/-- A text without slashes is one part. -/
theorem splitSlash_of_not_mem {t : Text} (h : '/' ∉ t) : splitSlash t = [t] := by
  induction t with
  | nil => rfl
  | cons c cs ih =>
    have hc : c ≠ '/' := fun he => h (he ▸ List.mem_cons_self)
    simp [splitSlash, hc, ih (fun hm => h (List.mem_cons_of_mem c hm))]

/-- A text cut in two at a slash has the parts of both sides. -/
theorem splitSlash_append (a b : Text) :
    splitSlash (a ++ '/' :: b) = splitSlash a ++ splitSlash b := by
  induction a with
  | nil => simp [splitSlash]
  | cons c cs ih =>
    simp only [List.cons_append, splitSlash]
    split
    next => rw [ih, List.cons_append]
    next =>
      rw [ih]
      cases hs : splitSlash cs with
      | nil => exact absurd hs (splitSlash_ne_nil cs)
      | cons p ps => rfl

end Path

end CaseFiles
