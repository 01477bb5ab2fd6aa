import CaseFiles.Error

/-!
# Formats and their tokens

A format is a text in which `%x` stands for a value named by the single character `x`. Scanning
cuts it into literal characters and placeholders, from left to right, and ends early at a percent
sign that has nothing after it. Main statement: the tokens write the format back
(`write_scan`).
-/

namespace CaseFiles

/-- One unit of a format. -/
inductive Token where
  /-- A character that stands for itself. -/
  | literal (c : Char)
  /-- A percent sign and the key after it. -/
  | placeholder (key : Char)
  deriving DecidableEq, Repr

/-- How a token is written in a format. -/
def Token.text : Token → Text
  | literal c => [c]
  | placeholder key => ['%', key]

/-- What scanning a format yields: its tokens, and whether a lone percent sign ended them. -/
structure Scan where
  tokens : List Token
  endsAlone : Bool
  deriving DecidableEq, Repr

namespace Format

/-- Puts a token in front. -/
def prepend (t : Token) (s : Scan) : Scan := ⟨t :: s.tokens, s.endsAlone⟩

/-- The tokens of a format. -/
def scan : Text → Scan
  | [] => ⟨[], false⟩
  | ['%'] => ⟨[], true⟩
  | '%' :: key :: rest => prepend (.placeholder key) (scan rest)
  | c :: rest => prepend (.literal c) (scan rest)

/-- The format that tokens come from. -/
def write (ts : List Token) : Text := ts.flatMap Token.text

theorem scan_literal {c : Char} (hc : c ≠ '%') (rest : Text) :
    scan (c :: rest) = prepend (.literal c) (scan rest) := by
  rw [scan]
  · rintro rfl
    exact absurd rfl hc
  · rintro key _ rfl
    exact absurd rfl hc

theorem scan_placeholder (key : Char) (rest : Text) :
    scan ('%' :: key :: rest) = prepend (.placeholder key) (scan rest) := by
  rw [scan]

/-- The tokens, and the lone percent sign if there is one, write the format back. -/
theorem write_scan (f : Text) :
    write (scan f).tokens ++ (if (scan f).endsAlone then ['%'] else []) = f := by
  fun_induction scan f with
  | case1 => rfl
  | case2 => rfl
  | case3 key rest ih => exact congrArg (fun t => '%' :: key :: t) ih
  | case4 c rest _ _ ih => exact congrArg (fun t => c :: t) ih

end Format

end CaseFiles
