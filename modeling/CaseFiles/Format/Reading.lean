import CaseFiles.Format.Token

/-!
# Reading a format

Every reading of a format (rendering it, globbing with it, matching with it) goes through its parts
from left to right: plain characters, among them the `%` that `%%` stands for, and fields. What a
part becomes is up to the reading. The first part that fails ends it; only if none fails does a
lone percent sign at the end of the format.
-/

namespace CaseFiles

/-- What a token asks of a reading. -/
inductive Part where
  /-- A character that stands for itself. -/
  | text (c : Char)
  /-- The value named by a key. -/
  | field (key : Char)
  deriving DecidableEq, Repr

/-- A placeholder with the key `%` is a plain percent sign, any other one is a field. -/
def Token.part : Token → Part
  | literal c => .text c
  | placeholder key => if key = '%' then .text '%' else .field key

/-- The key of a field. -/
def Part.key? : Part → Option Char
  | text _ => none
  | field key => some key

namespace Format

variable {α : Type}

/-- The parts of a format. -/
def parts (f : Text) : List Part := (scan f).tokens.map Token.part

/-- The keys of the fields among the parts, each once, in the order of first use. -/
def fieldKeys (ps : List Part) : List Char := (ps.filterMap Part.key?).eraseDups

/-- Strings together what the parts become. A part is told the keys of the fields before it. -/
def readParts (emit : List Char → Part → Except Error (List α)) (seen : List Char) :
    List Part → Except Error (List α)
  | [] => .ok []
  | p :: ps => do
    let out ← emit seen p
    let rest ← readParts emit (p.key?.toList ++ seen) ps
    return out ++ rest

/-- Refuses a format that ends with a lone percent sign. -/
def checkEnd (f : Text) : Except Error Unit :=
  if (scan f).endsAlone then .error (.malformedFormat f) else .ok ()

/-- Reads a whole format. -/
def read (emit : List Char → Part → Except Error (List α)) (f : Text) :
    Except Error (List α) := do
  let out ← readParts emit [] (parts f)
  checkEnd f
  return out

/-- The keys that a format uses, in the order of first use. -/
def keys (f : Text) : Except Error (List Char) := do
  checkEnd f
  return fieldKeys (parts f)

end Format

end CaseFiles
