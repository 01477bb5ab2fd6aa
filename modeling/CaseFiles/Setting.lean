import CaseFiles.Decimal.Shortest
import CaseFiles.Text.Units

/-!
# Settings

Whoever configures a locator may give a value of any kind for a setting. A value that is no text is
shown in the error about it.
-/

namespace CaseFiles

/-- A value given for a setting. -/
inductive Setting where
  /-- The setting is not given at all. -/
  | missing
  | null
  | bool (b : Bool)
  | number (x : Float)
  | text (t : Text)
  | list (items : List Setting)
  /-- A collection of named values. -/
  | record
  deriving Inhabited

namespace Setting

/-- Numbers are written out from `1e-6` up to below `1e21`. -/
def numberLayout : Decimal.Layout := ⟨-5, 21, 'e'⟩

/-- One tenth, the least number written out and the next smaller power of ten. -/
example :
    (Decimal.Binary.ofBits 0x3FB999999999999A).shortest.write numberLayout = "0.1".toList ∧
    (⟨1, -6⟩ : Decimal.Digits).write numberLayout = "0.000001".toList ∧
    (⟨15, -8⟩ : Decimal.Digits).write numberLayout = "1.5e-7".toList := by
  decide +kernel

/-- The greatest power of ten written out and the next one. -/
example :
    (⟨1, 20⟩ : Decimal.Digits).write numberLayout = "100000000000000000000".toList ∧
    (⟨1, 21⟩ : Decimal.Digits).write numberLayout = "1e+21".toList := by
  decide +kernel

/-- How a number is shown. Zero has no sign. -/
def showNumber (x : Float) : Text :=
  if x.isNaN then ['N', 'a', 'N']
  else
    let shown :=
      if x.isInf then "Infinity".toList
      else (Decimal.Binary.ofBits x.toBits).shortest.write numberLayout
    if x < 0 then '-' :: shown else shown

mutual

/-- How a value is shown: a list as its elements between commas. -/
def display : Setting → Text
  | missing => "undefined".toList
  | null => "null".toList
  | bool b => (if b then "true" else "false").toList
  | number x => showNumber x
  | text t => t
  | list items => displayItems items
  | record => "[object Object]".toList

/-- The elements of a list; one that is no value leaves its place empty. -/
def displayItems : List Setting → Text
  | [] => []
  | [x] => displayItem x
  | x :: y :: xs => displayItem x ++ ',' :: displayItems (y :: xs)

/-- One element of a list. -/
def displayItem : Setting → Text
  | missing => []
  | null => []
  | x => display x

end

end Setting

end CaseFiles
