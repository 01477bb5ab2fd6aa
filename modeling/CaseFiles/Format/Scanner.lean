import CaseFiles.Format.Token

/-!
# Scanning on demand

A scanner hands out the tokens of its format one at a time, so that a lone percent sign at the end
is noticed only when it is reached. A session holds any number of scanners, which take turns in
any order. Main statement: what a scanner hands out next is the first token of what is still to be
read (`next_eq`).
-/

namespace CaseFiles

/-- A format under way: the whole of it, and what is still to be read. -/
structure Scanner where
  format : Text
  rest : Text
  deriving DecidableEq, Repr

/-- What a scanner answers when it is asked for a token. -/
inductive Answer where
  | token (t : Token)
  | done
  | failed (cause : Error)
  deriving DecidableEq, Repr

namespace Scanner

/-- A scanner at the start of its format. -/
def new (format : Text) : Scanner := ⟨format, format⟩

/-- The next answer. A failure is given once; the scanner is done after it. -/
def next (s : Scanner) : Answer × Scanner :=
  match s.rest with
  | [] => (.done, s)
  | ['%'] => (.failed (.malformedFormat s.format), { s with rest := [] })
  | '%' :: key :: rest => (.token (.placeholder key), { s with rest })
  | c :: rest => (.token (.literal c), { s with rest })

/-- The answer agrees with scanning the rest of the format at once. -/
theorem next_eq (s : Scanner) :
    s.next.1 = match (Format.scan s.rest).tokens with
      | t :: _ => .token t
      | [] => if (Format.scan s.rest).endsAlone then .failed (.malformedFormat s.format) else .done := by
  obtain ⟨format, rest⟩ := s
  fun_cases Format.scan rest <;> simp [next, Format.prepend, *]

end Scanner

/-- The scanners in use, numbered in the order in which they were made. -/
abbrev Session := List Scanner

namespace Session

/-- What can be asked of a session. -/
inductive Request where
  /-- A new scanner for a format. -/
  | start (format : Text)
  /-- The next answer of a scanner. -/
  | next (index : Nat)
  deriving DecidableEq, Repr

/-- What a session replies. -/
inductive Reply where
  /-- The number of the scanner that was made. -/
  | started (index : Nat)
  | answer (a : Answer)
  /-- There is no scanner with that number. -/
  | unknown
  deriving DecidableEq, Repr

/-- Serves one request. -/
def serve (s : Session) : Request → Reply × Session
  | .start format => (.started s.length, s ++ [.new format])
  | .next i =>
    match s[i]? with
    | some scanner => (.answer scanner.next.1, s.set i scanner.next.2)
    | none => (.unknown, s)

/-- Serves requests one after the other. -/
def run (s : Session) : List Request → List Reply
  | [] => []
  | r :: rs => (s.serve r).1 :: run (s.serve r).2 rs

end Session

end CaseFiles
