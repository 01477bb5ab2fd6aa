import CaseFiles.Glob.Quote
import CaseFiles.Path

/-!
# Segments of globs

A glob is matched segment by segment against the names on a path. Without a star a segment is a
plain name. Stars never match a dot at the start of a name. A segment that begins with its only
stars and then has none of `+ @ ! ? * [ (` is tested by its ending alone, and the ending is taken
as it is written, with the backslashes of quoted characters in it. Main statement: a star takes any
part of a name (`matchPieces_star_iff`).
-/

namespace CaseFiles.Glob

/-- A piece of a segment with stars. -/
inductive Piece where
  | char (c : Char)
  | star
  deriving DecidableEq, Repr

/-- One segment of a glob. -/
inductive Segment where
  /-- Exactly this name. -/
  | literal (name : Text)
  /-- Any name with this ending. -/
  | ending (tail : Text)
  /-- Any name made of these pieces. -/
  | wild (pieces : List Piece)
  /-- Any number of directories. -/
  | globstar
  deriving DecidableEq, Repr

/-- The pieces of a written segment. -/
def piecesOf : Text → List Piece
  | [] => []
  | ['\\'] => [.char '\\']
  | '\\' :: c :: rest => .char c :: piecesOf rest
  | '*' :: rest => .star :: piecesOf rest
  | c :: rest => .char c :: piecesOf rest

/-- The characters that keep a segment from being tested by its ending alone. -/
def unfit : List Char := ['+', '@', '!', '?', '*', '[', '(']

/-- Reads a written segment. -/
def Segment.ofText (s : Text) : Segment :=
  let tail := s.dropWhile (· == '*')
  if s = ['*', '*'] then .globstar
  else if s.head? = some '*' ∧ tail.all (· ∉ unfit) then .ending tail
  else if (piecesOf s).contains .star then .wild (piecesOf s)
  else .literal (unquote s)

/-- Whether a text or what is left of it after some characters satisfies a test. -/
def someTail (test : Text → Bool) : Text → Bool
  | [] => test []
  | c :: cs => test (c :: cs) || someTail test cs

/-- Whether a text is made of the given pieces. -/
def matchPieces : List Piece → Text → Bool
  | [], n => n.isEmpty
  | .char c :: ps, n =>
    match n with
    | [] => false
    | d :: ds => c == d && matchPieces ps ds
  | .star :: ps, n => someTail (matchPieces ps) n

/-- Whether a name begins with a dot. -/
def isHidden (name : Text) : Bool := name.head? == some '.'

/-- Whether a name fits a segment; a globstar is no test of one name. -/
def Segment.test : Segment → Text → Bool
  | literal n, name => n == name
  | ending tail, name => !isHidden name && tail.isSuffixOf name
  | wild ps, name => (ps.head? != some .star || !isHidden name) && matchPieces ps name
  | globstar, _ => false

theorem someTail_iff {test : Text → Bool} {t : Text} :
    someTail test t = true ↔ ∃ a b, t = a ++ b ∧ test b = true := by
  induction t with
  | nil =>
    refine ⟨fun h => ⟨[], [], rfl, h⟩, ?_⟩
    rintro ⟨a, b, h, hb⟩
    obtain ⟨rfl, rfl⟩ := List.append_eq_nil_iff.mp h.symm
    exact hb
  | cons c cs ih =>
    rw [someTail, Bool.or_eq_true, ih]
    constructor
    · rintro (h | ⟨a, b, rfl, hb⟩)
      · exact ⟨[], c :: cs, rfl, h⟩
      · exact ⟨c :: a, b, rfl, hb⟩
    · rintro ⟨a, b, h, hb⟩
      cases a with
      | nil =>
        refine Or.inl ?_
        rwa [h]
      | cons d ds =>
        rw [List.cons_append, List.cons.injEq] at h
        exact Or.inr ⟨ds, b, h.2, hb⟩

/-- A star takes any part of a name. -/
theorem matchPieces_star_iff {ps : List Piece} {t : Text} :
    matchPieces (.star :: ps) t = true ↔ ∃ a b, t = a ++ b ∧ matchPieces ps b = true := by
  rw [matchPieces, someTail_iff]

end CaseFiles.Glob
