import CaseFiles.Text.Units

/-!
# Sets of code units

What one position of a regular expression can match. `\d`, `\w` and word boundaries know only the
digits and letters of ASCII; white space is that of Unicode together with the line ends, the byte
order mark and the control characters that tabulate.
-/

namespace CaseFiles.Regex

/-- The unit of a character that has only one. -/
def unitOf (c : Char) : CodeUnit := UInt16.ofNat c.toNat

/-- A set of code units. -/
inductive Charset where
  | none
  /-- The units from the first to the last, both included. -/
  | span (first last : CodeUnit)
  | union (a b : Charset)
  | compl (a : Charset)
  deriving DecidableEq, Repr

namespace Charset

/-- Whether a unit is in a set. -/
def has : Charset → CodeUnit → Bool
  | none, _ => false
  | span first last, u => first ≤ u && u ≤ last
  | union a b, u => a.has u || b.has u
  | compl a, u => !a.has u

/-- The set of a single unit. -/
def single (u : CodeUnit) : Charset := span u u

/-- The set of the units of a range of characters. -/
def chars (first last : Char) : Charset := span (unitOf first) (unitOf last)

/-- The set that has what any of the given sets has. -/
def unions (sets : List Charset) : Charset := sets.foldr union none

/-- The ends of lines. -/
def lineEnd : Charset :=
  unions [single 0x000A, single 0x000D, span 0x2028 0x2029]

/-- What a point matches. -/
def notLineEnd : Charset := compl lineEnd

/-- The decimal digits. -/
def digit : Charset := chars '0' '9'

/-- The characters of words. -/
def word : Charset := unions [chars 'a' 'z', chars 'A' 'Z', digit, single (unitOf '_')]

/-- White space. -/
def blank : Charset :=
  unions [span 0x0009 0x000D, single 0x0020, single 0x00A0, single 0x1680, span 0x2000 0x200A,
    span 0x2028 0x2029, single 0x202F, single 0x205F, single 0x3000, single 0xFEFF]

@[simp] theorem has_single (u v : CodeUnit) : (single u).has v = (u == v) := by
  simp only [single, has]
  rw [Bool.eq_iff_iff, Bool.and_eq_true, decide_eq_true_eq, decide_eq_true_eq, beq_iff_eq]
  exact ⟨fun h => UInt16.le_antisymm h.1 h.2, by rintro rfl; exact ⟨UInt16.le_refl _, UInt16.le_refl _⟩⟩

@[simp] theorem has_compl (a : Charset) (u : CodeUnit) : (compl a).has u = !a.has u := rfl

@[simp] theorem has_union (a b : Charset) (u : CodeUnit) :
    (union a b).has u = (a.has u || b.has u) := rfl

end Charset

end CaseFiles.Regex
