import CaseFiles.Regex.Parse

/-!
# Matching

A match walks through the text from a place between two units and hands each place where it could
go on to a continuation, in order of preference; the first continuation that succeeds decides.
Looking back walks from right to left. A repetition forgets before each round what the groups in
its body have kept, and beyond the least number of rounds a round must take something. Main
statements: more fuel than there are units left changes nothing (`optional_fuel`), hence the
equation of the repetition without fuel (`optional_eq`).
-/

namespace CaseFiles.Regex

/-- What the groups have kept, the latest first. -/
abbrev Captures := List (Nat × List CodeUnit)

/-- A place in the text, and what the groups have kept on the way to it. -/
structure Place where
  /-- The units before the place, nearest first. -/
  before : List CodeUnit
  /-- The units after the place. -/
  after : List CodeUnit
  kept : Captures
  deriving DecidableEq, Repr

/-- What is to be done from the places that a match reaches. -/
abbrev Next := Place → Option Place

namespace Place

/-- The place at the start of a text. -/
def start (text : List CodeUnit) : Place := ⟨[], text, []⟩

/-- One unit further in the given direction, if the unit is in the set. -/
def take (ahead : Bool) (set : Charset) (p : Place) : Option Place :=
  if ahead then
    match p.after with
    | u :: us => if set.has u then some { p with before := u :: p.before, after := us } else none
    | [] => none
  else
    match p.before with
    | u :: us => if set.has u then some { p with before := us, after := u :: p.after } else none
    | [] => none

/-- Past the given units in the given direction, if they stand there. -/
def takeAll (ahead : Bool) (w : List CodeUnit) (p : Place) : Option Place :=
  if ahead then
    if w.isPrefixOf p.after then
      some { p with before := w.reverse ++ p.before, after := p.after.drop w.length }
    else none
  else
    if w.reverse.isPrefixOf p.before then
      some { p with before := p.before.drop w.length, after := w ++ p.after }
    else none

/-- How many units lie ahead in the given direction. -/
def left (ahead : Bool) (p : Place) : Nat := if ahead then p.after.length else p.before.length

/-- The units between a place and one reached from it. -/
def between (ahead : Bool) (p q : Place) : List CodeUnit :=
  if ahead then p.after.take (p.after.length - q.after.length)
  else (p.before.take (p.before.length - q.before.length)).reverse

/-- Forgets what some groups have kept. -/
def forget (groups : List Nat) (p : Place) : Place :=
  { p with kept := p.kept.filter fun c => c.1 ∉ groups }

/-- Keeps what a group took. -/
def keep (index : Nat) (w : List CodeUnit) (p : Place) : Place :=
  { p with kept := (index, w) :: p.kept.filter fun c => c.1 ≠ index }

/-- Whether a word begins or ends here. -/
def atBoundary (p : Place) : Bool :=
  p.before.head?.any Charset.word.has != p.after.head?.any Charset.word.has

/-- Whether a condition holds. -/
def satisfies (p : Place) : Edge → Bool
  | .start => p.before.isEmpty
  | .finish => p.after.isEmpty
  | .boundary => p.atBoundary
  | .inside => !p.atBoundary

end Place

variable (body : Place → Next → Option Place) (clear : List Nat)

/-- The given number of rounds. -/
def times : Nat → Place → Next → Option Place
  | 0, p, next => next p
  | n + 1, p, next => body (p.forget clear) fun q => times n q next

/-- Tries the first or, if the match is to be as short as possible, the second before the other. -/
@[macro_inline] def prefer (greedy : Bool) (a b : Option Place) : Option Place :=
  if greedy then a <|> b else b <|> a

/-- Any number of rounds that take something each, with fuel for the units that are left. -/
def optional (ahead greedy : Bool) : Nat → Option Nat → Place → Next → Option Place
  | _, some 0, p, next => next p
  | 0, _, p, next => prefer greedy (body (p.forget clear) fun _ => none) (next p)
  | fuel + 1, most, p, next =>
    prefer greedy
      (body (p.forget clear) fun q =>
        if q.left ahead < p.left ahead then optional ahead greedy fuel (most.map (· - 1)) q next
        else none)
      (next p)

variable {body clear}

/-- Fuel for the units that are left is enough. -/
theorem optional_fuel {ahead greedy : Bool} {fuel fuel' : Nat} {most : Option Nat} {p : Place}
    {next : Next} (h : p.left ahead ≤ fuel) (h' : p.left ahead ≤ fuel') :
    optional body clear ahead greedy fuel most p next =
      optional body clear ahead greedy fuel' most p next := by
  induction fuel generalizing fuel' most p with
  | zero =>
    have hp : p.left ahead = 0 := by omega
    cases fuel' with
    | zero => rfl
    | succ fuel' =>
      cases most with
      | none => simp [optional, hp]
      | some m => cases m <;> simp [optional, hp]
  | succ fuel ih =>
    have step : ∀ (g : Nat) (m : Option Nat), p.left ahead ≤ g + 1 →
        (fun q => if q.left ahead < p.left ahead then
            optional body clear ahead greedy fuel m q next else none) =
          fun q => if q.left ahead < p.left ahead then
            optional body clear ahead greedy g m q next else none := by
      intro g m hg
      funext q
      split
      next hq => exact ih (by omega) (by omega)
      next => rfl
    cases fuel' with
    | zero =>
      have hp : p.left ahead = 0 := by omega
      cases most with
      | none => simp [optional, hp]
      | some m => cases m <;> simp [optional, hp]
    | succ fuel' =>
      cases most with
      | none => simp only [optional, step fuel' _ h']
      | some m =>
        cases m with
        | zero => rfl
        | succ m => simp only [optional, step fuel' _ h']

/-- One round of a repetition, or none; each further round has the fuel it needs. -/
theorem optional_eq {ahead greedy : Bool} {fuel : Nat} {most : Option Nat} {p : Place} {next : Next}
    (h : p.left ahead ≤ fuel) (hm : most ≠ some 0) :
    optional body clear ahead greedy fuel most p next =
      prefer greedy
        (body (p.forget clear) fun q =>
          if q.left ahead < p.left ahead then
            optional body clear ahead greedy (q.left ahead) (most.map (· - 1)) q next
          else none)
        (next p) := by
  rw [optional_fuel h (Nat.le_succ_of_le h)]
  have hf : (fun q => if q.left ahead < p.left ahead then
        optional body clear ahead greedy fuel (most.map (· - 1)) q next else none) =
      fun q => if q.left ahead < p.left ahead then
        optional body clear ahead greedy (q.left ahead) (most.map (· - 1)) q next else none := by
    funext q
    split
    next hq => exact optional_fuel (by omega) (Nat.le_refl _)
    next => rfl
  rw [optional, hf]
  exact fun he => hm he

/-- Matches an expression from a place in the given direction. -/
def run : Regex → Bool → Place → Next → Option Place
  | empty, _, p, next => next p
  | unit s, ahead, p, next => (p.take ahead s).bind next
  | seq a b, ahead, p, next =>
    if ahead then a.run ahead p fun q => b.run ahead q next
    else b.run ahead p fun q => a.run ahead q next
  | alt a b, ahead, p, next => a.run ahead p next <|> b.run ahead p next
  | group i body, ahead, p, next =>
    body.run ahead p fun q => next (q.keep i (p.between ahead q))
  | back i, ahead, p, next =>
    match p.kept.lookup i with
    | some w => (p.takeAll ahead w).bind next
    | none => next p
  | edge e, _, p, next => if p.satisfies e then next p else none
  | look ahead negated body, _, p, next =>
    match body.run ahead p some, negated with
    | some q, false => next { p with kept := q.kept }
    | some _, true => none
    | none, false => none
    | none, true => next p
  | rep q body, ahead, p, next =>
    times (body.run ahead) body.groups q.min p fun m =>
      optional (body.run ahead) body.groups ahead q.greedy (m.left ahead)
        (q.max.map (· - q.min)) m next

/-- Matches an expression from the first place from which it can be matched, where the units before
and after the first place to try are given. -/
def searchFrom (r : Regex) : List CodeUnit → List CodeUnit → Option Place
  | before, [] => r.run true ⟨before, [], []⟩ some
  | before, u :: us => r.run true ⟨before, u :: us, []⟩ some <|> r.searchFrom (u :: before) us

/-- What the groups of an expression keep when it is searched for in a text. -/
def exec (r : Regex) (text : List CodeUnit) : Option Captures :=
  (r.searchFrom [] text).map Place.kept

end CaseFiles.Regex
