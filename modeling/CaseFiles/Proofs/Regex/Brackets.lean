import CaseFiles.Proofs.Regex.Passing

/-!
# Groups that are closed

Whatever else an expression is read as, its groups are opened and closed by parentheses that stand
neither in a class nor after a backslash. So what ends a group is decided by the units alone: each
lexeme is followed through both readings (`afterClose_readLexeme`). Main statements: what is read as
balanced lexemes does not close the group around it (`afterClose_of_balanced`), and where the units
close a group, the lexemes do (`exists_closing`).
-/

namespace CaseFiles

namespace Regex

/-- What follows the parenthesis that closes the group one is in, where so many groups are open
inside of it. -/
def afterClose (depth : Nat) (inClass : Bool) : List CodeUnit → Option (List CodeUnit)
  | [] => none
  | u :: us =>
    if isChar '\\' u then
      match us with
      | [] => none
      | _ :: rest => afterClose depth inClass rest
    else if inClass then afterClose depth (!isChar ']' u) us
    else if isChar '[' u then afterClose depth true us
    else if isChar '(' u then afterClose (depth + 1) false us
    else if isChar ')' u then
      match depth with
      | 0 => some us
      | outer + 1 => afterClose outer false us
    else afterClose depth false us

/-- From one text to the other nothing is opened or closed, whatever comes behind both. -/
def Skips (inClass : Bool) (us rest : List CodeUnit) : Prop :=
  ∀ depth tail, afterClose depth inClass (us ++ tail) = afterClose depth inClass (rest ++ tail)

theorem Skips.refl (inClass : Bool) (us : List CodeUnit) : Skips inClass us us := fun _ _ => rfl

theorem Skips.trans {inClass : Bool} {us vs ws : List CodeUnit} (h : Skips inClass us vs)
    (h' : Skips inClass vs ws) : Skips inClass us ws :=
  fun depth tail => (h depth tail).trans (h' depth tail)

theorem skips_plain {inClass : Bool} {u : CodeUnit} (h : u ∉ brackets) (us : List CodeUnit) :
    Skips inClass (u :: us) us := by
  intro depth tail
  rw [List.cons_append, afterClose.eq_def depth inClass (u :: _)]
  have hmem (c : Char) (hc : unitOf c ∈ brackets) := isChar_eq_false h hc
  simp only [hmem '\\' (by decide), hmem '[' (by decide), hmem ']' (by decide),
    hmem '(' (by decide), hmem ')' (by decide), Bool.false_eq_true, if_false, Bool.not_false]
  cases inClass <;> rfl

theorem skips_escaped (inClass : Bool) (u : CodeUnit) (us : List CodeUnit) :
    Skips inClass (unitOf '\\' :: u :: us) us := by
  intro depth tail
  rw [List.cons_append, afterClose.eq_def depth inClass (unitOf '\\' :: _)]
  simp only [isChar, beq_self_eq_true, if_true, List.cons_append]

theorem skips_member {u : CodeUnit} (hescape : u ≠ unitOf '\\') (hclose : u ≠ unitOf ']')
    (us : List CodeUnit) : Skips true (u :: us) us := by
  intro depth tail
  rw [List.cons_append, afterClose.eq_def depth true (u :: _)]
  simp only [isChar, beq_false_of_ne hescape, beq_false_of_ne hclose, Bool.false_eq_true, if_false,
    if_true, Bool.not_false]

/-- What opens and closes nothing is skipped. -/
theorem Passes.skips {inClass : Bool} {us rest : List CodeUnit} (h : Passes inClass us rest) :
    Skips inClass us rest := by
  induction h with
  | refl us => exact Skips.refl inClass us
  | plain hu _ ih => exact (skips_plain hu _).trans ih
  | escaped _ ih => exact (skips_escaped inClass _ _).trans ih
  | @alone u us rest hu _ ih =>
    have hself : Skips inClass us (u :: us) := fun depth tail => (skips_plain hu us depth tail).symm
    exact ((skips_escaped inClass u us).trans hself).trans ih
  | member hclass hescape hclose _ ih =>
    subst hclass
    exact (skips_member hescape hclose _).trans ih

section

variable {us rest : List CodeUnit}

theorem afterClose_opening (depth : Nat) (us : List CodeUnit) :
    afterClose depth false (unitOf '(' :: us) = afterClose (depth + 1) false us := by
  rw [afterClose.eq_def depth false (unitOf '(' :: _)]
  rfl

theorem afterClose_closing (depth : Nat) (us : List CodeUnit) :
    afterClose depth false (unitOf ')' :: us) =
      if depth = 0 then some us else afterClose (depth - 1) false us := by
  rw [afterClose.eq_def depth false (unitOf ')' :: _)]
  cases depth <;> rfl

theorem afterClose_bracket (depth : Nat) (us : List CodeUnit) :
    afterClose depth false (unitOf '[' :: us) = afterClose depth true us := by
  rw [afterClose.eq_def depth false (unitOf '[' :: _)]
  rfl

/-- Outside a class a closing bracket closes nothing. -/
theorem afterClose_lone (depth : Nat) (us : List CodeUnit) :
    afterClose depth false (unitOf ']' :: us) = afterClose depth false us := by
  rw [afterClose.eq_def depth false (unitOf ']' :: _)]
  rfl

/-- In a class it closes the class. -/
theorem afterClose_classEnd (depth : Nat) (us : List CodeUnit) :
    afterClose depth true (unitOf ']' :: us) = afterClose depth false us := by
  rw [afterClose.eq_def depth true (unitOf ']' :: _)]
  rfl

/-- A lexeme that opens or closes a group does so in the units as well, and any other one does
neither. -/
theorem afterClose_readLexeme {strict : Bool} {u : CodeUnit} {x : Lexeme}
    (h : readLexeme strict u us = some (x, rest)) (depth : Nat) (tail : List CodeUnit) :
    afterClose depth false (u :: us ++ tail) =
      match nest depth x with
      | some inner => afterClose inner false (rest ++ tail)
      | none => some (rest ++ tail) := by
  cases takes_readLexeme h with
  | flat hnest hpass _ =>
    rw [hnest depth]
    exact hpass.skips depth tail
  | opening hu hpass =>
    rw [hu, List.cons_append, afterClose_opening]
    exact hpass.skips (depth + 1) tail
  | closing hu =>
    rw [hu, List.cons_append, afterClose_closing, nest]
    split <;> rfl
  | set hu hpass =>
    rw [hu, List.cons_append, afterClose_bracket]
    exact (hpass.skips depth tail).trans (afterClose_classEnd depth _)
  | lone hu =>
    rw [hu, List.cons_append]
    exact afterClose_lone depth _

end

/-- How many groups are open after some lexemes, if the group one is in is not closed. -/
def nestAll (depth : Nat) (xs : List Lexeme) : Option Nat := xs.foldlM nest depth

theorem nestAll_cons (depth : Nat) (x : Lexeme) (xs : List Lexeme) :
    nestAll depth (x :: xs) = (nest depth x).bind fun inner => nestAll inner xs := rfl

/-- Units that are read as balanced lexemes do not close the group that is around them. -/
theorem afterClose_of_balanced {strict : Bool} {n depth : Nat} {us : List CodeUnit}
    {xs : List Lexeme} (h : readLexemes strict n us = some xs) (hxs : nestAll depth xs = some 0)
    (rest : List CodeUnit) : afterClose depth false (us ++ unitOf ')' :: rest) = some rest := by
  induction n generalizing us xs depth with
  | zero =>
    cases us with
    | nil =>
      obtain rfl := Option.some.inj h
      obtain rfl := Option.some.inj hxs
      exact afterClose_closing 0 rest
    | cons u us => cases h
  | succ n ih =>
    cases us with
    | nil =>
      obtain rfl := Option.some.inj h
      obtain rfl := Option.some.inj hxs
      exact afterClose_closing 0 rest
    | cons u us =>
      obtain ⟨_, x, after, more, hfuel, hx, hmore, rfl⟩ := exists_of_readLexemes_cons h
      obtain rfl := Nat.succ.inj hfuel
      rw [nestAll_cons] at hxs
      obtain ⟨inner, hinner, hmorexs⟩ := Option.bind_eq_some_iff.mp hxs
      have hstep := afterClose_readLexeme hx depth (unitOf ')' :: rest)
      rw [hinner] at hstep
      exact hstep.trans (ih hmore hmorexs)

/-- Where the units close a group, the lexemes do. -/
theorem exists_closing {strict : Bool} {n depth : Nat} {us rest : List CodeUnit}
    {xs : List Lexeme} (h : readLexemes strict n us = some xs)
    (hrest : afterClose depth false us = some rest) :
    ∃ m ys zs, xs = ys ++ .closing :: zs ∧ nestAll depth ys = some 0 ∧
      readLexemes strict m rest = some zs := by
  induction n generalizing us xs depth with
  | zero =>
    cases us with
    | nil => cases hrest
    | cons u us => cases h
  | succ n ih =>
    cases us with
    | nil => cases hrest
    | cons u us =>
      obtain ⟨_, x, after, more, hfuel, hx, hmore, rfl⟩ := exists_of_readLexemes_cons h
      obtain rfl := Nat.succ.inj hfuel
      have hstep := afterClose_readLexeme hx depth []
      rw [List.append_nil, List.append_nil, hrest] at hstep
      cases hinner : nest depth x with
      | none =>
        rw [hinner] at hstep
        obtain rfl := Option.some.inj hstep
        cases x with
        | closing =>
          rw [nest, ite_eq_left_iff] at hinner
          have hdepth : depth = 0 := by_contra fun hne => nomatch hinner hne
          exact ⟨_, [], more, rfl, congrArg some hdepth, hmore⟩
        | _ => cases hinner
      | some inner =>
        rw [hinner] at hstep
        obtain ⟨m, ys, zs, hxs, hys, hzs⟩ := ih hmore hstep.symm
        refine ⟨m, x :: ys, zs, congrArg (x :: ·) hxs, ?_, hzs⟩
        rw [nestAll_cons, hinner]
        exact hys

end Regex

end CaseFiles
