import CaseFiles.Regex.Charset

/-!
# Regular expressions

The structure of a regular expression over code units, with groups that capture, references back to
them, and conditions on what lies before and after.
-/

namespace CaseFiles

namespace Regex

/-- A condition on a place between two units. -/
inductive Edge where
  /-- The start of the text. -/
  | start
  /-- The end of the text. -/
  | finish
  /-- A word begins or ends here. -/
  | boundary
  /-- No word begins or ends here. -/
  | inside
  deriving DecidableEq, Repr

/-- How often something may be repeated, and whether rather more or rather fewer times. -/
structure Quantifier where
  min : Nat
  max : Option Nat
  greedy : Bool
  deriving DecidableEq, Repr

end Regex

/-- Regular expressions. -/
inductive Regex where
  /-- Matches without taking anything. -/
  | empty
  /-- Takes one unit of a set. -/
  | unit (set : Regex.Charset)
  | seq (a b : Regex)
  /-- Tries the first and then the second. -/
  | alt (a b : Regex)
  /-- Keeps what the body took. Groups count from 1. -/
  | group (index : Nat) (body : Regex)
  /-- Takes what a group has kept; nothing if the group has not taken part. -/
  | back (index : Nat)
  | edge (e : Regex.Edge)
  /-- Looks whether the body matches after (`ahead`) or before this place, and takes nothing. -/
  | look (ahead negated : Bool) (body : Regex)
  | rep (q : Regex.Quantifier) (body : Regex)
  deriving DecidableEq, Repr

namespace Regex

/-- The groups in an expression. -/
def groups : Regex → List Nat
  | empty | unit _ | back _ | edge _ => []
  | seq a b | alt a b => a.groups ++ b.groups
  | group i body => i :: body.groups
  | look _ _ body | rep _ body => body.groups

end Regex

end CaseFiles
