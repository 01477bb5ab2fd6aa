import CaseFiles.Text.Units

/-!
# Test cases

A test case is an input file together with, possibly, the output that is expected of it. Which of
the two a file is stands in its extension, `in` or `out`.
-/

namespace CaseFiles

/-- The part that a file plays in its test case. -/
inductive Ext where
  | input
  | output
  deriving DecidableEq, Repr

/-- How an extension is written in a file's name. -/
def Ext.text : Ext → Text
  | .input => ['i', 'n']
  | .output => ['o', 'u', 't']

/-- The extension written so, if it is one. -/
def Ext.ofText? (t : Text) : Option Ext :=
  if t = Ext.input.text then some .input
  else if t = Ext.output.text then some .output
  else none

@[simp] theorem Ext.ofText?_text (e : Ext) : Ext.ofText? e.text = some e := by
  cases e <;> rfl

theorem Ext.ofText?_eq_some_iff {t : Text} {e : Ext} : Ext.ofText? t = some e ↔ t = e.text := by
  constructor
  · unfold Ext.ofText?
    split
    next h => rintro ⟨⟩; exact h
    next =>
      split
      next h => rintro ⟨⟩; exact h
      next => simp
  · rintro rfl
    exact Ext.ofText?_text e

/-- A test case: its name, the path of its input, and the path of its output if it has one. -/
structure Case where
  name : Text
  input : Text
  output : Option Text
  deriving DecidableEq, Repr

end CaseFiles
