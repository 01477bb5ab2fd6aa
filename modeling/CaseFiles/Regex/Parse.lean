import CaseFiles.Regex.Lexeme

/-!
# Reading regular expressions

The lexemes of an expression are put together with a stack of the groups that are open. A quantifier
repeats the one term before it, and is an error where there is none: at the start of an alternative,
after a condition, after another quantifier and after looking back. A number refers to a group if
the whole expression has that many; otherwise it writes a character in octal digits.
-/

namespace CaseFiles.Regex

/-- A group that is open: what opened it, its alternatives so far and the terms of the last one,
both with the latest first. -/
structure Frame where
  opening : Opening
  /-- The number of the group if it captures. -/
  index : Nat
  alternatives : List Regex
  terms : List Regex
  deriving DecidableEq, Repr

namespace Frame

/-- A group that has just been opened. -/
def new (opening : Opening) (index : Nat) : Frame := ⟨opening, index, [], []⟩

/-- Adds a term to the last alternative. -/
def add (f : Frame) (t : Regex) : Frame := { f with terms := t :: f.terms }

/-- The last alternative. -/
def row (f : Frame) : Regex := f.terms.foldl (fun rest t => seq t rest) empty

/-- Begins a new alternative. -/
def split (f : Frame) : Frame := { f with alternatives := f.row :: f.alternatives, terms := [] }

/-- All alternatives. -/
def body (f : Frame) : Regex := f.alternatives.foldl (fun rest a => alt a rest) f.row

/-- The term that the group is when it is closed. -/
def close (f : Frame) : Regex :=
  match f.opening with
  | .plain => f.body
  | .capture _ => group f.index f.body
  | .look ahead negated => look ahead negated f.body

/-- Whether the closed group may be repeated. -/
def repeatable (f : Frame) : Bool :=
  match f.opening with
  | .look ahead _ => ahead
  | _ => true

end Frame

/-- The state of reading: the innermost group, those around it, the number of groups that have been
opened, and whether a quantifier may follow. -/
structure Reader where
  top : Frame
  outer : List Frame
  count : Nat
  canRepeat : Bool
  deriving DecidableEq, Repr

/-- The numbers of the named groups, given the number of groups before. -/
def groupNames : Nat → List Lexeme → List (Text × Nat)
  | _, [] => []
  | count, .opening (.capture name) :: xs =>
    let rest := groupNames (count + 1) xs
    match name with
    | some n => (n, count + 1) :: rest
    | none => rest
  | count, _ :: xs => groupNames count xs

/-- The number of groups that capture. -/
def groupCount (xs : List Lexeme) : Nat :=
  xs.countP fun x =>
    match x with
    | .opening (.capture _) => true
    | _ => false

/-- The terms for a backslash and a number in an expression with the given number of groups. -/
def numberTerms (total : Nat) (digits : List Char) : List Regex :=
  let literal (us : List CodeUnit) := us.map fun u => unit (.single u)
  if natOf digits ≤ total then [back (natOf digits)]
  else
    match digits.map unitOf with
    | [] => []
    | u :: us =>
      match octalValue? u with
      | some d =>
        let (value, rest) := readOctal 2 d us
        literal (UInt16.ofNat value :: rest)
      | none => literal (u :: us)

namespace Reader

/-- Nothing read yet. -/
def start : Reader := ⟨.new .plain 0, [], 0, false⟩

/-- Adds a term that a quantifier may follow. -/
def add (r : Reader) (t : Regex) : Reader := { r with top := r.top.add t, canRepeat := true }

/-- Takes in one lexeme. -/
def step (names : List (Text × Nat)) (total : Nat) (r : Reader) : Lexeme → Option Reader
  | .unit s => some (r.add (unit s))
  | .edge e => some { r with top := r.top.add (edge e), canRepeat := false }
  | .opening o =>
    let count :=
      match o with
      | .capture _ => r.count + 1
      | _ => r.count
    some ⟨.new o count, r.top :: r.outer, count, false⟩
  | .closing =>
    match r.outer with
    | [] => none
    | f :: fs => some ⟨f.add r.top.close, fs, r.count, r.top.repeatable⟩
  | .bar => some { r with top := r.top.split, canRepeat := false }
  | .quantifier q =>
    match r.top.terms with
    | t :: ts =>
      if r.canRepeat then
        some { r with top := { r.top with terms := rep q t :: ts }, canRepeat := false }
      else none
    | [] => none
  | .number digits => some ((numberTerms total digits).foldl add r)
  | .named n => (names.lookup n).map fun i => r.add (back i)

/-- The expression that has been read, unless a group is still open. -/
def finish (r : Reader) : Option Regex := if r.outer.isEmpty then some r.top.body else none

end Reader

/-- An expression and the numbers of its named groups. -/
structure Parsed where
  regex : Regex
  names : List (Text × Nat)
  deriving DecidableEq, Repr

/-- Puts lexemes together. A name may be given to one group only. -/
def ofLexemes (xs : List Lexeme) : Option Parsed := do
  let names := groupNames 0 xs
  if (names.map Prod.fst).Nodup then
    let r ← xs.foldlM (Reader.step names (groupCount xs)) Reader.start
    return ⟨← r.finish, names⟩
  else none

/-- Reads a written expression; there is none if it is not well formed. -/
def parse (us : List CodeUnit) : Option Parsed :=
  (lexemes (namesGroup false us) us).bind ofLexemes

end CaseFiles.Regex
