import CaseFiles.Text.Units

/-!
# Text inside regular expressions

A backslash in front of a character that has a meaning of its own makes it stand for itself.
-/

namespace CaseFiles.Regex

/-- The characters that mean something in a regular expression. -/
def special : List Char :=
  ['.', '*', '+', '?', '^', '$', '{', '}', '(', ')', '|', '[', ']', '\\']

/-- One character as a regular expression that matches it. -/
def quoteChar (c : Char) : Text := if c ∈ special then ['\\', c] else [c]

/-- A regular expression that matches exactly the given text. -/
def quote (t : Text) : Text := t.flatMap quoteChar

@[simp] theorem quote_append (a b : Text) : quote (a ++ b) = quote a ++ quote b := by
  simp [quote]

end CaseFiles.Regex
