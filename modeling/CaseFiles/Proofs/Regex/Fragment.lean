import CaseFiles.Regex.Charset
import CaseFiles.Regex.Quote
import Mathlib.Computability.Language

/-!
# Regular fragments

The regular expressions without groups that capture, references, conditions and lazy quantifiers:
escaped characters of the basic plane, the sets that have a written form of their own, groups that
only hold their body together, repetition of one atom, rows and choices. A fragment is given as the
tree of its written form, so that nothing is repeated that is not an atom. Beside the written form
stands the language of a fragment over code units; both are defined without regard to how
expressions are read or matched.
-/

namespace CaseFiles

namespace Regex

open Computability

/-- The sets of units that have a written form of their own. -/
inductive Shorthand where
  | point
  | digit
  | word
  | blank
  deriving DecidableEq, Repr

namespace Shorthand

/-- How a set is written. -/
def text : Shorthand → Text
  | point => ['.']
  | digit => ['\\', 'd']
  | word => ['\\', 'w']
  | blank => ['\\', 's']

/-- The units of a set: all but the four ends of lines, the digits and word characters of ASCII, and
white space. -/
def members : Shorthand → Set CodeUnit
  | point => {u | u ≠ 0x000A ∧ u ≠ 0x000D ∧ u ≠ 0x2028 ∧ u ≠ 0x2029}
  | digit => {u | 0x0030 ≤ u ∧ u ≤ 0x0039}
  | word =>
    {u | 0x0030 ≤ u ∧ u ≤ 0x0039 ∨ 0x0041 ≤ u ∧ u ≤ 0x005A ∨ 0x0061 ≤ u ∧ u ≤ 0x007A ∨
      u = 0x005F}
  | blank =>
    {u | 0x0009 ≤ u ∧ u ≤ 0x000D ∨ u = 0x0020 ∨ u = 0x00A0 ∨ u = 0x1680 ∨
      0x2000 ≤ u ∧ u ≤ 0x200A ∨ u = 0x2028 ∨ u = 0x2029 ∨ u = 0x202F ∨ u = 0x205F ∨
      u = 0x3000 ∨ u = 0xFEFF}

end Shorthand

/-- How often an atom is repeated. -/
inductive Repeat where
  /-- Any number of times. -/
  | star
  /-- At least once. -/
  | plus
  /-- At most once. -/
  | opt
  deriving DecidableEq, Repr

namespace Repeat

/-- The quantifier that asks for a repetition. -/
def mark : Repeat → Char
  | star => '*'
  | plus => '+'
  | opt => '?'

/-- The words that consist of so many words of a language. -/
def language (L : Language CodeUnit) : Repeat → Language CodeUnit
  | star => L∗
  | plus => L * L∗
  | opt => 1 + L

end Repeat

/-- The ranks of written fragments, each of which is made of the one before. -/
inductive Rank where
  /-- What a quantifier can repeat. -/
  | atom
  /-- An atom that may be repeated. -/
  | term
  /-- Any number of terms, one after the other. -/
  | row
  /-- Rows with bars between them. -/
  | choice
  deriving DecidableEq, Repr

/-- Written fragments. -/
inductive Fragment : Rank → Type where
  | set (s : Shorthand) : Fragment .atom
  | char (c : Char) (basic : c.toNat < 0x10000) : Fragment .atom
  | group (body : Fragment .choice) : Fragment .atom
  | once (a : Fragment .atom) : Fragment .term
  | repeated (a : Fragment .atom) (r : Repeat) : Fragment .term
  | empty : Fragment .row
  | cons (t : Fragment .term) (rest : Fragment .row) : Fragment .row
  | only (r : Fragment .row) : Fragment .choice
  | or (r : Fragment .row) (rest : Fragment .choice) : Fragment .choice

namespace Fragment

/-- How a fragment is written. -/
def text {k : Rank} : Fragment k → Text
  | set s => s.text
  | char c _ => quoteChar c
  | group body => ['(', '?', ':'] ++ body.text ++ [')']
  | once a => a.text
  | repeated a r => a.text ++ [r.mark]
  | empty => []
  | cons t rest => t.text ++ rest.text
  | only r => r.text
  | or r rest => r.text ++ '|' :: rest.text

/-- The words over code units that a fragment stands for. -/
def language {k : Rank} : Fragment k → Language CodeUnit
  | set s => {w | ∃ u ∈ s.members, w = [u]}
  | char c _ => {Text.charUnits c}
  | group body => body.language
  | once a => a.language
  | repeated a r => r.language a.language
  | empty => 1
  | cons t rest => t.language * rest.language
  | only r => r.language
  | or r rest => r.language + rest.language

/-- The row of one term. -/
def single (t : Fragment .term) : Fragment .row := cons t empty

/-- The row of the characters of a text. -/
def chars : (t : Text) → (∀ c ∈ t, c.toNat < 0x10000) → Fragment .row
  | [], _ => empty
  | c :: t, h =>
    cons (once (char c (h c List.mem_cons_self))) (chars t fun d hd => h d (List.mem_cons_of_mem c hd))

end Fragment

end Regex

end CaseFiles
