import CaseFiles.Text.Units

/-!
# Text inside globs

A backslash takes away the meaning of the character after it. Main statement: unquoting a quoted
text gives it back (`unquote_quote`).
-/

namespace CaseFiles.Glob

/-- The characters that mean something in a glob. -/
def special : List Char := ['?', '*', '(', ')', '[', ']', '\\']

/-- One character as a glob that matches it. -/
def quoteChar (c : Char) : Text := if c ∈ special then ['\\', c] else [c]

/-- A glob that matches exactly the given text. -/
def quote (t : Text) : Text := t.flatMap quoteChar

/-- Takes out the backslashes, each together with its protection of the next character. -/
def unquote : Text → Text
  | [] => []
  | ['\\'] => ['\\']
  | '\\' :: c :: rest => c :: unquote rest
  | c :: rest => c :: unquote rest

theorem unquote_cons {c : Char} (hc : c ≠ '\\') (rest : Text) :
    unquote (c :: rest) = c :: unquote rest := by
  rw [unquote]
  · rintro rfl
    exact absurd rfl hc
  · rintro d _ rfl
    exact absurd rfl hc

/-- Unquoting a quoted text gives it back. -/
theorem unquote_quote (t : Text) : unquote (quote t) = t := by
  induction t with
  | nil => rfl
  | cons c t ih =>
    rw [quote, List.flatMap_cons, quoteChar]
    split
    next => exact (by rw [List.cons_append, List.cons_append, List.nil_append, unquote, ← quote, ih])
    next h =>
      have hc : c ≠ '\\' := fun he => h (by simp [special, he])
      rw [List.cons_append, List.nil_append, unquote_cons hc, ← quote, ih]

end CaseFiles.Glob
