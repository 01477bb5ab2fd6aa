import CaseFiles.Glob.Segment

/-!
# Globs in normal form

A written glob is cut at its slashes and simplified before the disk is looked at. Neighbouring
globstars are one, segments that stay where they are vanish inside, and a segment is cancelled by
the `..` after it. A globstar before `..` and two plain segments stands for two globs: one where it
took nothing and one where it took the `..` back. Of two globs that differ only in that one has a
star where the other has something narrower, or in where their globstars stand, one is kept.
-/

namespace CaseFiles.Glob

/-- The written form of a globstar. -/
def stars : Text := ['*', '*']

/-- The parts of a written glob between its slashes, where several slashes are as good as one. -/
def cut (g : Text) : List Text :=
  match Path.splitSlash g with
  | [] => []
  | [p] => [p]
  | p :: ps => p :: (ps.dropLast.filter (!·.isEmpty) ++ ps.getLast?.toList)

/-- Makes neighbouring globstars one. -/
def collapse : List Text → List Text
  | [] => []
  | [s] => [s]
  | s :: u :: rest =>
    if s = stars ∧ u = stars then collapse (u :: rest) else s :: collapse (u :: rest)

/-- Whether a part goes somewhere by a name. -/
def isPlain (s : Text) : Bool := !s.isEmpty && s != Path.dot && s != Path.dotDot

/-- Takes out each globstar before `..` and two plain parts; the other globs are those where the
globstar has taken the `..` back instead. -/
def fork : List Text → List Text × List (List Text)
  | [] => ([], [])
  | s :: rest =>
    let (kept, others) := fork rest
    match rest with
    | u :: p :: q :: more =>
      if s = stars ∧ u = Path.dotDot ∧ isPlain p ∧ isPlain q then
        (kept, others ++ [stars :: p :: q :: more])
      else (s :: kept, others.map (s :: ·))
    | _ => (s :: kept, others.map (s :: ·))

/-- Drops the parts that stay where they are, except at both ends. -/
def squeeze (parts : List Text) : List Text :=
  let inner :=
    match parts with
    | [] => []
    | p :: ps =>
      p :: (ps.dropLast.filter fun s => s != Path.dot && !s.isEmpty) ++ ps.getLast?.toList
  match inner with
  | [p, q] => if p = Path.dot ∧ (q = Path.dot ∨ q = []) then [p] else inner
  | _ => inner

/-- Whether a part is cancelled by the `..` after it. -/
def cancels (s : Text) : Bool := isPlain s && s != stars

/-- Cancels each part with the `..` after it. The parts before are stacked, latest first. A globstar
that would come to stand first gets a dot before it. -/
def cancel : List Text → List Text → List Text
  | stack, [] => stack.reverse
  | [], s :: rest => cancel [s] rest
  | top :: below, s :: rest =>
    if s = Path.dotDot ∧ cancels top then
      if below.isEmpty ∧ rest.head? = some stars then cancel [Path.dot] rest
      else cancel below rest
    else cancel (s :: top :: below) rest

/-- The simplified forms of a glob, with fuel for the rounds of simplifying. -/
def simplify : Nat → List Text → List (List Text)
  | 0, parts => [parts]
  | n + 1, parts =>
    let (kept, others) := fork (collapse parts)
    let done := cancel [] (squeeze kept)
    let done := if done.isEmpty then [[]] else done
    (if done = parts then [done] else simplify n done) ++ others.flatMap (simplify n)

/-- Which of two globs has been the wider one so far. -/
inductive Wider where
  | either
  | first
  | second
  deriving DecidableEq, Repr

/-- Whether a star is at least as wide as a part. -/
def underStar (s : Text) : Bool := !s.isEmpty && !isHidden s && s != stars

/-- The glob that matches what either of two matches, if one of them is the wider one in every
part, with fuel for their parts. -/
def joinParts : Nat → Wider → List Text → List Text → Option (List Text)
  | n + 1, w, a :: as, b :: bs =>
    if a = b then (joinParts n w as bs).map (a :: ·)
    else if a = stars ∧ as.head? = some b then (joinParts n w as (b :: bs)).map (a :: ·)
    else if b = stars ∧ bs.head? = some a then (joinParts n w (a :: as) bs).map (b :: ·)
    else if a = ['*'] ∧ underStar b then
      if w = .second then none else (joinParts n .first as bs).map (a :: ·)
    else if b = ['*'] ∧ underStar a then
      if w = .first then none else (joinParts n .second as bs).map (b :: ·)
    else none
  | _, _, _, _ => some []

/-- One glob for two of the same length, if there is such a one. -/
def join? (a b : List Text) : Option (List Text) :=
  if a.length = b.length then joinParts (a.length + b.length) .either a b else none

/-- Replaces the first of the globs that can be joined with `a`. -/
def joinInto (a : List Text) : List (List Text) → Option (List (List Text))
  | [] => none
  | b :: bs =>
    match join? a b with
    | some c => some (c :: bs)
    | none => (joinInto a bs).map (b :: ·)

/-- Joins globs as long as there are two that can be joined, with fuel for their number. -/
def joinAll : Nat → List (List Text) → List (List Text)
  | n + 1, a :: rest =>
    match joinInto a rest with
    | some joined => joinAll n joined
    | none => a :: joinAll n rest
  | _, gs => gs

/-- A glob in normal form. -/
structure Pattern where
  /-- Whether it starts at the root. -/
  absolute : Bool
  segments : List Segment
  deriving DecidableEq, Repr

/-- The glob with the given parts. -/
def Pattern.ofParts (parts : List Text) : Pattern :=
  match parts with
  | [] :: [] :: p :: ps => ⟨true, (p :: ps).map .ofText⟩
  | [[], []] => ⟨true, []⟩
  | [] :: p :: ps => ⟨true, (p :: ps).map .ofText⟩
  | _ => ⟨false, parts.map .ofText⟩

/-- The globs in normal form that a written one stands for; none if it is empty. -/
def patterns (g : Text) : List Pattern :=
  if g.isEmpty then []
  else
    let parts := cut g
    let forms := simplify (2 * parts.length + 1) parts
    (joinAll forms.length forms).map .ofParts

end CaseFiles.Glob
