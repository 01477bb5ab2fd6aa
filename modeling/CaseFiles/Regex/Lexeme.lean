import CaseFiles.Regex.Syntax
import CaseFiles.Text.Identifier

/-!
# The lexemes of regular expressions

A regular expression is written as a row of lexemes: single units and sets, conditions, the opening
and closing of groups, bars, quantifiers and references back. Once some group of the expression has
a name, `\k` must be followed by a name; otherwise it is the letter `k`. Whatever has no meaning of
its own stands for itself, such as a brace that begins no quantifier.
-/

namespace CaseFiles.Regex

/-- What an opening parenthesis opens. -/
inductive Opening where
  /-- A group that only holds its body together. -/
  | plain
  /-- A group that keeps what it takes, with a name or without. -/
  | capture (name : Option Text)
  | look (ahead negated : Bool)
  deriving DecidableEq, Repr

/-- One lexeme. -/
inductive Lexeme where
  | unit (set : Charset)
  | edge (e : Edge)
  | opening (o : Opening)
  | closing
  | bar
  | quantifier (q : Quantifier)
  /-- A backslash and a row of digits that does not begin with zero. -/
  | number (digits : List Char)
  /-- A reference to the group with a name. -/
  | named (name : Text)
  deriving DecidableEq, Repr

/-- The character of a unit, for telling which one it is. Surrogates are none that mean anything. -/
def charOf (u : CodeUnit) : Char := Char.ofNat u.toNat

/-- Whether a unit is the given character. -/
def isChar (c : Char) (u : CodeUnit) : Bool := u == unitOf c

/-- Takes off a character that must come first. -/
def expect (c : Char) : List CodeUnit → Option (List CodeUnit)
  | [] => none
  | u :: us => if isChar c u then some us else none

/-- Takes off the digits in front. -/
def takeDigits (us : List CodeUnit) : List Char × List CodeUnit :=
  ((us.takeWhile Charset.digit.has).map charOf, us.dropWhile Charset.digit.has)

/-- The largest count that is told from infinity. -/
def maxCount : Nat := 0x7FFFFFFE

/-- The number that digits write. -/
def natOf (digits : List Char) : Nat :=
  digits.foldl (fun n d => 10 * n + (d.toNat - '0'.toNat)) 0

/-- The value of a hexadecimal digit. -/
def hexValue? (u : CodeUnit) : Option Nat :=
  let c := charOf u
  if '0' ≤ c ∧ c ≤ '9' then some (c.toNat - '0'.toNat)
  else if 'a' ≤ c ∧ c ≤ 'f' then some (c.toNat - 'a'.toNat + 10)
  else if 'A' ≤ c ∧ c ≤ 'F' then some (c.toNat - 'A'.toNat + 10)
  else none

/-- Reads exactly the given number of hexadecimal digits. -/
def readHex : Nat → Nat → List CodeUnit → Option (Nat × List CodeUnit)
  | 0, value, us => some (value, us)
  | _ + 1, _, [] => none
  | n + 1, value, u :: us => do readHex n (16 * value + (← hexValue? u)) us

/-- The value of an octal digit. -/
def octalValue? (u : CodeUnit) : Option Nat :=
  let c := charOf u
  if '0' ≤ c ∧ c ≤ '7' then some (c.toNat - '0'.toNat) else none

/-- Reads up to the given number of further octal digits while the value stays below 256. -/
def readOctal : Nat → Nat → List CodeUnit → Nat × List CodeUnit
  | n + 1, value, u :: us =>
    match octalValue? u with
    | some d => if 8 * value + d < 256 then readOctal n (8 * value + d) us else (value, u :: us)
    | none => (value, u :: us)
  | _, value, us => (value, us)

/-- The set that a letter after a backslash stands for. -/
def classEscape? : Char → Option Charset
  | 'd' => some .digit
  | 'D' => some (.compl .digit)
  | 's' => some .blank
  | 'S' => some (.compl .blank)
  | 'w' => some .word
  | 'W' => some (.compl .word)
  | _ => none

/-- The control character that a letter after `\c` stands for. In a class a digit or a low line will
do as well. -/
def control? (inClass : Bool) (u : CodeUnit) : Option CodeUnit :=
  let c := charOf u
  if c.isAlpha ∨ inClass ∧ (c.isDigit ∨ c = '_') then some (u % 32) else none

/-- Reads the rest of an escape that stands for one unit, where `u` follows the backslash. -/
def readEscape (strict inClass : Bool) (u : CodeUnit) (us : List CodeUnit) :
    Option (CodeUnit × List CodeUnit) :=
  match charOf u with
  | 'f' => some (0x000C, us)
  | 'n' => some (0x000A, us)
  | 'r' => some (0x000D, us)
  | 't' => some (0x0009, us)
  | 'v' => some (0x000B, us)
  | 'c' =>
    match us.head?.bind (control? inClass) with
    | some v => some (v, us.tail)
    | none => some (unitOf '\\', u :: us)
  | 'x' =>
    match readHex 2 0 us with
    | some (value, rest) => some (UInt16.ofNat value, rest)
    | none => some (u, us)
  | 'u' =>
    match readHex 4 0 us with
    | some (value, rest) => some (UInt16.ofNat value, rest)
    | none => some (u, us)
  | 'k' => if strict then none else some (u, us)
  | _ =>
    match octalValue? u with
    | some d =>
      let (value, rest) := readOctal 2 d us
      some (UInt16.ofNat value, rest)
    | none => some (u, us)

/-- Reads a code between braces, or four hexadecimal digits. -/
def readCode (us : List CodeUnit) : Option (Nat × List CodeUnit) :=
  match expect '{' us with
  | some rest => do
    let digits := rest.takeWhile fun u => (hexValue? u).isSome
    let after ← expect '}' (rest.drop digits.length)
    let (value, _) ← readHex digits.length 0 digits
    if digits.isEmpty ∨ 0x10FFFF < value then none else some (value, after)
  | none => readHex 4 0 us

/-- Reads one character of a name. It may be written as an escape, and a surrogate pair is one
character; so are two escapes that write the halves of a pair without braces. -/
def readNameChar (u : CodeUnit) (us : List CodeUnit) : Option (Char × List CodeUnit) := do
  if isChar '\\' u then
    let code ← expect 'u' us
    let (value, rest) ← readCode code
    if Text.isLead (UInt16.ofNat value) ∧ (expect '{' code).isNone then
      let (low, after) ← readHex 4 0 (← (expect '\\' rest).bind (expect 'u'))
      if Text.isTrail (UInt16.ofNat low) then
        some (Text.pairChar (UInt16.ofNat value) (UInt16.ofNat low), after)
      else none
    else some (Char.ofNat value, rest)
  else if Text.isLead u then
    let v ← us.head?
    if Text.isTrail v then some (Text.pairChar u v, us.tail) else none
  else some (charOf u, us)

/-- Reads the characters of a name up to the `>` after it. -/
def readNameChars : Nat → List CodeUnit → Option (Text × List CodeUnit)
  | 0, _ => none
  | _, [] => none
  | n + 1, u :: us => do
    let (c, rest) ← readNameChar u us
    if c = '>' then return ([], rest)
    let (name, after) ← readNameChars n rest
    return (c :: name, after)

/-- Reads a name and the `>` after it. -/
def readName (us : List CodeUnit) : Option (Text × List CodeUnit) := do
  let (name, rest) ← readNameChars us.length us
  if Text.isIdentifier name then some (name, rest) else none

/-- One end of a range in a class: a unit, or a set that is no end of a range. -/
inductive ClassAtom where
  | one (u : CodeUnit)
  | many (set : Charset)
  deriving DecidableEq, Repr

/-- The set of the units of an end. -/
def ClassAtom.set : ClassAtom → Charset
  | one u => .single u
  | many s => s

/-- Reads an end of a range. -/
def readClassAtom (strict : Bool) (u : CodeUnit) (us : List CodeUnit) :
    Option (ClassAtom × List CodeUnit) :=
  if isChar '\\' u then
    match us with
    | [] => none
    | v :: vs =>
      match classEscape? (charOf v) with
      | some s => some (.many s, vs)
      | none =>
        if isChar 'b' v then some (.one 0x0008, vs)
        else (readEscape strict true v vs).map fun (w, rest) => (.one w, rest)
  else some (.one u, us)

/-- Reads the members of a class up to the `]` after them. Next to a set, a hyphen is a member. -/
def readMembers (strict : Bool) : Nat → List CodeUnit → Option (Charset × List CodeUnit)
  | 0, _ => none
  | _, [] => none
  | n + 1, u :: us =>
    if isChar ']' u then some (.none, us)
    else do
      let (a, rest) ← readClassAtom strict u us
      match rest with
      | h :: v :: vs =>
        if isChar '-' h ∧ !isChar ']' v then
          let (b, after) ← readClassAtom strict v vs
          let (more, final) ← readMembers strict n after
          match a, b with
          | .one first, .one last =>
            if first ≤ last then some (.union (.span first last) more, final) else none
          | _, _ =>
            some (.union a.set (.union (.single (unitOf '-')) (.union b.set more)), final)
        else
          let (more, final) ← readMembers strict n rest
          some (.union a.set more, final)
      | _ =>
        let (more, final) ← readMembers strict n rest
        some (.union a.set more, final)

/-- Reads the class that an opening bracket begins. -/
def readClass (strict : Bool) (us : List CodeUnit) : Option (Charset × List CodeUnit) :=
  match expect '^' us with
  | some rest => (readMembers strict rest.length rest).map fun (s, after) => (.compl s, after)
  | none => readMembers strict us.length us

/-- A count, where a very large one is as good as infinity. -/
def boundedCount (n : Nat) : Option Nat := if n ≤ maxCount then some n else none

/-- Reads the counts between braces, the least one and the greatest one. -/
def readCounts (us : List CodeUnit) : Option ((Nat × Option Nat) × List CodeUnit) := do
  let (low, rest) := takeDigits us
  if low.isEmpty then none
  let least := min (natOf low) (maxCount + 1)
  match expect '}' rest with
  | some after => some ((least, boundedCount least), after)
  | none =>
    let (high, rest) := takeDigits (← expect ',' rest)
    let after ← expect '}' rest
    some ((least, if high.isEmpty then none else boundedCount (natOf high)), after)

/-- Makes a quantifier, which is a lazy one if a question mark follows. -/
def readGreed (least : Nat) (most : Option Nat) (us : List CodeUnit) : Lexeme × List CodeUnit :=
  match expect '?' us with
  | some rest => (.quantifier ⟨least, most, false⟩, rest)
  | none => (.quantifier ⟨least, most, true⟩, us)

/-- Reads what follows an opening parenthesis. -/
def readOpening (us : List CodeUnit) : Option (Lexeme × List CodeUnit) :=
  match expect '?' us with
  | none => some (.opening (.capture none), us)
  | some [] => none
  | some (v :: vs) =>
    match charOf v with
    | ':' => some (.opening .plain, vs)
    | '=' => some (.opening (.look true false), vs)
    | '!' => some (.opening (.look true true), vs)
    | '<' =>
      match vs.head?.map charOf with
      | some '=' => some (.opening (.look false false), vs.tail)
      | some '!' => some (.opening (.look false true), vs.tail)
      | _ => (readName vs).map fun (name, rest) => (.opening (.capture (some name)), rest)
    | _ => none

/-- Reads what follows a backslash. -/
def readBackslash (strict : Bool) : List CodeUnit → Option (Lexeme × List CodeUnit)
  | [] => none
  | u :: us =>
    match charOf u with
    | 'b' => some (.edge .boundary, us)
    | 'B' => some (.edge .inside, us)
    | c =>
      match classEscape? c with
      | some s => some (.unit s, us)
      | none =>
        if '1' ≤ c ∧ c ≤ '9' then
          let (digits, rest) := takeDigits us
          some (.number (c :: digits), rest)
        else if c = 'k' ∧ strict then do
          let (name, rest) ← readName (← expect '<' us)
          return (.named name, rest)
        else (readEscape strict false u us).map fun (v, rest) => (.unit (.single v), rest)

/-- Reads the lexeme that begins with `u`. -/
def readLexeme (strict : Bool) (u : CodeUnit) (us : List CodeUnit) :
    Option (Lexeme × List CodeUnit) :=
  match charOf u with
  | '^' => some (.edge .start, us)
  | '$' => some (.edge .finish, us)
  | '(' => readOpening us
  | ')' => some (.closing, us)
  | '|' => some (.bar, us)
  | '.' => some (.unit .notLineEnd, us)
  | '*' => some (readGreed 0 none us)
  | '+' => some (readGreed 1 none us)
  | '?' => some (readGreed 0 (some 1) us)
  | '{' =>
    match readCounts us with
    | some ((least, most), rest) =>
      if most.all (least ≤ ·) then some (readGreed least most rest) else none
    | none => some (.unit (.single u), us)
  | '[' => (readClass strict us).map fun (s, rest) => (.unit s, rest)
  | '\\' => readBackslash strict us
  | _ => some (.unit (.single u), us)

/-- Reads all lexemes; there are at most as many as there are units. -/
def readLexemes (strict : Bool) : Nat → List CodeUnit → Option (List Lexeme)
  | _, [] => some []
  | 0, _ :: _ => none
  | n + 1, u :: us => do
    let (x, rest) ← readLexeme strict u us
    let xs ← readLexemes strict n rest
    return x :: xs

/-- The lexemes of a written expression. -/
def lexemes (strict : Bool) (us : List CodeUnit) : Option (List Lexeme) :=
  readLexemes strict us.length us

/-- Whether some group of a written expression has a name. -/
def namesGroup (inClass : Bool) : List CodeUnit → Bool
  | [] => false
  | u :: us =>
    if isChar '\\' u then
      match us with
      | [] => false
      | _ :: rest => namesGroup inClass rest
    else if inClass then namesGroup (!isChar ']' u) us
    else if isChar '[' u then namesGroup true us
    else if isChar '(' u then
      match us with
      | q :: l :: rest =>
        (isChar '?' q && isChar '<' l && !(rest.head?.any fun x => isChar '=' x || isChar '!' x))
          || namesGroup false us
      | _ => false
    else namesGroup false us

end CaseFiles.Regex
