import CaseFiles.Proofs.Regex.Matching

/-!
# Expressions that match alike

What the groups keep matters for a match only where something refers back to it. So expressions
without references match alike if they differ in nothing but their groups. Main statement:
`exec_alike`.
-/

namespace CaseFiles

namespace Regex

/-- Expressions that refer back to no group and differ only in how their groups are numbered, where
the second one may have groups that the first one does without. -/
inductive Alike : Regex → Regex → Prop
  | empty : Alike .empty .empty
  | unit (set : Charset) : Alike (.unit set) (.unit set)
  | seq {a b c d : Regex} : Alike a b → Alike c d → Alike (.seq a c) (.seq b d)
  | alt {a b c d : Regex} : Alike a b → Alike c d → Alike (.alt a c) (.alt b d)
  | group {a b : Regex} (i j : Nat) : Alike a b → Alike (.group i a) (.group j b)
  | edge (e : Edge) : Alike (.edge e) (.edge e)
  | look {a b : Regex} (ahead negated : Bool) :
      Alike a b → Alike (.look ahead negated a) (.look ahead negated b)
  | rep {a b : Regex} (q : Quantifier) : Alike a b → Alike (.rep q a) (.rep q b)
  | extra {a b : Regex} (i : Nat) : Alike a b → Alike a (.group i b)

/-- The same place in the text, whatever has been kept on the way to it. -/
def Place.SameSpot (p q : Place) : Prop := p.before = q.before ∧ p.after = q.after

open Place (SameSpot)

/-- What is to be done succeeds at the same places in the text. -/
def Meets (next next' : Next) : Prop :=
  ∀ p q, SameSpot p q → (next p).isSome = (next' q).isSome

/-- Two ways of walking from the same place in the text succeed together. -/
def Agrees (walk walk' : Place → Next → Option Place) : Prop :=
  ∀ p q next next', SameSpot p q → Meets next next' → (walk p next).isSome = (walk' q next').isSome

theorem isSome_orElse_congr {a b c d : Option Place} (h : a.isSome = c.isSome)
    (h' : b.isSome = d.isSome) : (a <|> b).isSome = (c <|> d).isSome := by
  cases a with
  | none =>
    cases c with
    | none => exact h'
    | some q => exact absurd h Bool.false_ne_true
  | some p =>
    cases c with
    | none => exact absurd h.symm Bool.false_ne_true
    | some q => rfl

theorem isSome_prefer_congr (greedy : Bool) {a b c d : Option Place} (h : a.isSome = c.isSome)
    (h' : b.isSome = d.isSome) : (prefer greedy a b).isSome = (prefer greedy c d).isSome := by
  cases greedy with
  | true => exact isSome_orElse_congr h h'
  | false => exact isSome_orElse_congr h' h

section

variable {walk walk' : Place → Next → Option Place}

/-- The same number of rounds. -/
theorem Agrees.times (h : Agrees walk walk') (clear clear' : List Nat) (n : Nat) :
    Agrees (times walk clear n) (times walk' clear' n) := by
  induction n with
  | zero => exact fun p q next next' hspot hnext => hnext p q hspot
  | succ n ih =>
    intro p q next next' hspot hnext
    exact h (p.forget clear) (q.forget clear') _ _ hspot fun p' q' hspot' =>
      ih p' q' next next' hspot' hnext

/-- Any number of rounds. -/
theorem Agrees.optional (h : Agrees walk walk') (clear clear' : List Nat) (ahead greedy : Bool)
    (fuel : Nat) (most : Option Nat) :
    Agrees (optional walk clear ahead greedy fuel most)
      (optional walk' clear' ahead greedy fuel most) := by
  induction fuel generalizing most with
  | zero =>
    intro p q next next' hspot hnext
    have hround := isSome_prefer_congr greedy
      (h (p.forget clear) (q.forget clear') (fun _ => none) (fun _ => none) hspot fun _ _ _ => rfl)
      (hnext p q hspot)
    cases most with
    | none => exact hround
    | some m =>
      cases m with
      | zero => exact hnext p q hspot
      | succ m => exact hround
  | succ fuel ih =>
    intro p q next next' hspot hnext
    have hleft {p q : Place} (hspot : SameSpot p q) : p.left ahead = q.left ahead := by
      rw [Place.left, Place.left, hspot.1, hspot.2]
    have hround (most : Option Nat) := isSome_prefer_congr greedy
      (h (p.forget clear) (q.forget clear')
        (fun m => if m.left ahead < p.left ahead then
          Regex.optional walk clear ahead greedy fuel most m next else none)
        (fun m => if m.left ahead < q.left ahead then
          Regex.optional walk' clear' ahead greedy fuel most m next' else none) hspot
        (by
          intro m m' hspot'
          simp only [hleft hspot, hleft hspot']
          split
          · exact ih most m m' next next' hspot' hnext
          · rfl))
      (hnext p q hspot)
    cases most with
    | none => exact hround none
    | some m =>
      cases m with
      | zero => exact hnext p q hspot
      | succ m => exact hround (some m)

end

theorem take_congr {ahead : Bool} {set : Charset} {p q : Place} {next next' : Next}
    (hspot : SameSpot p q) (hnext : Meets next next') :
    ((p.take ahead set).bind next).isSome = ((q.take ahead set).bind next').isSome := by
  obtain ⟨before, after, kept⟩ := p
  obtain ⟨_, _, kept'⟩ := q
  obtain ⟨rfl, rfl⟩ := hspot
  cases ahead with
  | true =>
    cases after with
    | nil => rfl
    | cons u us =>
      simp only [Place.take, if_true]
      split
      · exact hnext _ _ ⟨rfl, rfl⟩
      · rfl
  | false =>
    cases before with
    | nil => rfl
    | cons u us =>
      simp only [Place.take, Bool.false_eq_true, if_false]
      split
      · exact hnext _ _ ⟨rfl, rfl⟩
      · rfl

theorem satisfies_congr {p q : Place} (hspot : SameSpot p q) (e : Edge) :
    p.satisfies e = q.satisfies e := by
  cases e <;> simp only [Place.satisfies, Place.atBoundary, hspot.1, hspot.2]

/-- Expressions that are alike match from the same places. -/
theorem agrees_run {r r' : Regex} (h : Alike r r') (ahead : Bool) :
    Agrees (r.run ahead) (r'.run ahead) := by
  induction h generalizing ahead with
  | empty => exact fun p q next next' hspot hnext => hnext p q hspot
  | unit set => exact fun p q next next' hspot hnext => take_congr hspot hnext
  | seq _ _ iha ihc =>
    intro p q next next' hspot hnext
    cases ahead with
    | true =>
      exact iha true p q _ _ hspot fun p' q' hspot' => ihc true p' q' next next' hspot' hnext
    | false =>
      exact ihc false p q _ _ hspot fun p' q' hspot' => iha false p' q' next next' hspot' hnext
  | alt _ _ iha ihc =>
    intro p q next next' hspot hnext
    exact isSome_orElse_congr (iha ahead p q next next' hspot hnext)
      (ihc ahead p q next next' hspot hnext)
  | group i j _ ih =>
    intro p q next next' hspot hnext
    exact ih ahead p q _ _ hspot fun p' q' hspot' => hnext _ _ hspot'
  | edge e =>
    intro p q next next' hspot hnext
    simp only [run, satisfies_congr hspot]
    split
    · exact hnext p q hspot
    · rfl
  | @look a b forward negated _ ih =>
    intro p q next next' hspot hnext
    have hlook := ih forward p q some some hspot fun _ _ _ => rfl
    have hstay (kept kept' : Captures) : (next { p with kept }).isSome =
        (next' { q with kept := kept' }).isSome := hnext _ _ hspot
    unfold run
    cases ha : a.run forward p some <;> cases hb : b.run forward q some <;> rw [ha, hb] at hlook
    · cases negated with
      | true => exact hnext p q hspot
      | false => rfl
    · cases hlook
    · cases hlook
    · cases negated with
      | true => rfl
      | false => exact hstay _ _
  | @rep a b quantifier _ ih =>
    intro p q next next' hspot hnext
    refine (ih ahead).times a.groups b.groups quantifier.min p q _ _ hspot fun m m' hspot' => ?_
    have hleft : m.left ahead = m'.left ahead := by
      rw [Place.left, Place.left, hspot'.1, hspot'.2]
    rw [hleft]
    exact (ih ahead).optional a.groups b.groups ahead quantifier.greedy _ _ m m' next next' hspot'
      hnext
  | extra i _ ih =>
    intro p q next next' hspot hnext
    exact ih ahead p q _ _ hspot fun p' q' hspot' => hnext _ _ hspot'

/-- Expressions that are alike are found in the same texts. -/
theorem exec_alike {r r' : Regex} (h : Alike r r') (text : List CodeUnit) :
    (r.exec text).isSome = (r'.exec text).isSome := by
  have hsearch (before after : List CodeUnit) :
      (r.searchFrom before after).isSome = (r'.searchFrom before after).isSome := by
    have hrun (p : Place) : (r.run true p some).isSome = (r'.run true p some).isSome :=
      agrees_run h true p p some some ⟨rfl, rfl⟩ fun _ _ _ => rfl
    induction after generalizing before with
    | nil => exact hrun _
    | cons u us ih => exact isSome_orElse_congr (hrun _) (ih (u :: before))
  rw [exec, exec, Option.isSome_map, Option.isSome_map]
  exact hsearch [] text

end Regex

end CaseFiles
