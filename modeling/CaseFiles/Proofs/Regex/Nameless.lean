import CaseFiles.Proofs.Regex.Locality

/-!
# Lexemes without names

Where no group has a name and none is referred to by its name, no name stands in the lexemes either,
and it does not matter for them whether some other group of the whole expression has a name. Main
statements: `nameless_of_lexemes`, `lexemes_of_unreferring`.
-/

namespace CaseFiles

namespace Regex

/-- The name that stands in a lexeme. -/
def Lexeme.name? : Lexeme → Option Text
  | .opening (.capture name) => name
  | .named name => some name
  | _ => none

/-- A lexeme in which no name stands. -/
def Lexeme.nameless (x : Lexeme) : Bool := x.name?.isNone

theorem nameless_readGreed (least : Nat) (most : Option Nat) (us : List CodeUnit) :
    (readGreed least most us).1.nameless = true := by
  unfold readGreed
  split <;> rfl

theorem nameless_readOpening {us rest : List CodeUnit} {x : Lexeme}
    (h : readOpening us = some (x, rest)) (hname : namesGroup false (unitOf '(' :: us) = false) :
    x.nameless = true := by
  unfold readOpening at h
  split at h
  · obtain ⟨rfl, -⟩ := Prod.mk.inj (Option.some.inj h)
    rfl
  · cases h
  · rename_i v vs hquestion
    split at h
    case h_1 | h_2 | h_3 =>
      obtain ⟨rfl, -⟩ := Prod.mk.inj (Option.some.inj h)
      rfl
    case h_4 hv =>
      rw [expect_eq_some hquestion, eq_unitOf hv (by decide)] at hname
      obtain ⟨w, after, rfl, rfl | rfl⟩ := looks_back_of_nameless hname
      all_goals
        obtain ⟨rfl, -⟩ := Prod.mk.inj (Option.some.inj h)
        rfl
    case h_5 => cases h

theorem nameless_readBackslash {strict : Bool} {us rest : List CodeUnit} {x : Lexeme}
    (h : readBackslash strict us = some (x, rest))
    (href : refersByName (unitOf '\\' :: us) = false) : x.nameless = true := by
  cases us with
  | nil => cases h
  | cons u us =>
    unfold readBackslash at h
    simp only at h
    split at h
    case h_1 | h_2 =>
      obtain ⟨rfl, -⟩ := Prod.mk.inj (Option.some.inj h)
      rfl
    case h_3 =>
      split at h
      · obtain ⟨rfl, -⟩ := Prod.mk.inj (Option.some.inj h)
        rfl
      · split at h
        · obtain ⟨rfl, -⟩ := Prod.mk.inj (Option.some.inj h)
          rfl
        · split at h
          · rename_i hk
            have := (refersByName_of_escape href).1
            rw [eq_unitOf hk.1 (by decide)] at this
            cases this
          · obtain ⟨found, -, h⟩ := Option.map_eq_some_iff.mp h
            obtain ⟨rfl, -⟩ := Prod.mk.inj h
            rfl

theorem nameless_readLexeme {strict : Bool} {u : CodeUnit} {us rest : List CodeUnit} {x : Lexeme}
    (h : Enclosed (u :: us)) (hx : readLexeme strict u us = some (x, rest)) :
    x.nameless = true := by
  unfold readLexeme at hx
  split at hx
  case h_3 hu =>
    rw [eq_unitOf hu (by decide)] at h
    exact nameless_readOpening hx h.nameless
  case h_7 | h_8 | h_9 =>
    rw [← (Prod.mk.inj (Option.some.inj hx)).1]
    exact nameless_readGreed _ _ us
  case h_10 =>
    split at hx
    · split at hx
      · rw [← (Prod.mk.inj (Option.some.inj hx)).1]
        exact nameless_readGreed _ _ _
      · cases hx
    · rw [← (Prod.mk.inj (Option.some.inj hx)).1]
      rfl
  case h_11 =>
    obtain ⟨found, -, hx⟩ := Option.map_eq_some_iff.mp hx
    rw [← (Prod.mk.inj hx).1]
    rfl
  case h_12 hu =>
    rw [eq_unitOf hu (by decide)] at h
    exact nameless_readBackslash hx h.unreferring
  all_goals
    rw [← (Prod.mk.inj (Option.some.inj hx)).1]
    rfl

/-- No name stands in what is written up to a parenthesis. -/
theorem nameless_of_lexemes {strict : Bool} {us : List CodeUnit} {xs : List Lexeme}
    (h : Enclosed us) (hxs : lexemes strict (us ++ [unitOf ')']) = some xs) :
    ∀ x ∈ xs, x.nameless = true := by
  induction us using takes_induction generalizing xs with
  | nil =>
    obtain rfl := Option.some.inj (hxs : some [Lexeme.closing] = some xs)
    decide
  | cons u us ih =>
    by_cases hne : u = unitOf '\\' → us ≠ []
    · rw [List.cons_append, lexemes_cons, readLexeme_append [] h hne] at hxs
      obtain ⟨p, hp, hxs⟩ := Option.bind_eq_some_iff.mp hxs
      obtain ⟨⟨x, rest⟩, hx, rfl⟩ := Option.map_eq_some_iff.mp hp
      obtain ⟨more, hmore, rfl⟩ := Option.map_eq_some_iff.mp hxs
      have htakes := takes_readLexeme hx
      refine List.forall_mem_cons.mpr ⟨nameless_readLexeme h hx, ?_⟩
      exact ih htakes (h.tail htakes) hmore
    · obtain ⟨rfl, rfl⟩ : u = unitOf '\\' ∧ us = [] := by
        simpa using hne
      obtain rfl := Option.some.inj
        (hxs : some [Lexeme.unit (.single (unitOf ')'))] = some xs)
      decide

/-- Only `\k` is read in different ways. -/
theorem readEscape_of_ne {u : CodeUnit} (hu : isChar 'k' u = false) (strict member : Bool)
    (us : List CodeUnit) : readEscape strict member u us = readEscape false member u us := by
  unfold readEscape
  split
  case h_9 hk =>
    rw [eq_unitOf hk (by decide)] at hu
    cases hu
  all_goals rfl

theorem readClassAtom_of_unreferring {u : CodeUnit} {us : List CodeUnit}
    (href : refersByName (u :: us) = false) (strict : Bool) :
    readClassAtom strict u us = readClassAtom false u us := by
  unfold readClassAtom
  split
  · rename_i hu
    cases us with
    | nil => rfl
    | cons v us =>
      rw [beq_iff_eq.mp hu] at href
      dsimp only
      rw [readEscape_of_ne (refersByName_of_escape href).1]
  · rfl

theorem readMembers_of_unreferring {us : List CodeUnit} (href : refersByName us = false)
    (strict : Bool) (n : Nat) : readMembers strict n us = readMembers false n us := by
  induction n generalizing us with
  | zero => rfl
  | succ n ih =>
    cases us with
    | nil => rfl
    | cons u us =>
      cases hu : isChar ']' u with
      | true => rw [readMembers_closing hu, readMembers_closing hu]
      | false =>
        rw [readMembers_cons hu, readMembers_cons hu, readClassAtom_of_unreferring href]
        refine Option.bind_congr fun p hp => ?_
        have hpass := passes_readClassAtom hp (beq_eq_false_iff_ne.mp hu)
        have hrest := refersByName_of_passes hpass href
        rw [readBehind, readBehind]
        cases hrange : rangeEnd? p.2 with
        | none => rw [ih hrest]
        | some q =>
          obtain ⟨hafter, hv⟩ := eq_of_rangeEnd? hrange
          rw [hafter, refersByName_of_ne (by decide)] at hrest
          simp only
          rw [readClassAtom_of_unreferring hrest]
          refine Option.bind_congr fun b hb => ?_
          have hpass := passes_readClassAtom hb (beq_eq_false_iff_ne.mp hv)
          rw [ih (refersByName_of_passes hpass hrest)]

theorem readClass_of_unreferring {us : List CodeUnit} (href : refersByName us = false)
    (strict : Bool) : readClass strict us = readClass false us := by
  unfold readClass
  split
  · rename_i rest hcompl
    rw [expect_eq_some hcompl, refersByName_of_ne (by decide)] at href
    rw [readMembers_of_unreferring href]
  · exact readMembers_of_unreferring href strict us.length

theorem readBackslash_of_unreferring {us : List CodeUnit}
    (href : refersByName (unitOf '\\' :: us) = false) (strict : Bool) :
    readBackslash strict us = readBackslash false us := by
  cases us with
  | nil => rfl
  | cons u us =>
    have hk := (refersByName_of_escape href).1
    have hkey : charOf u ≠ 'k' := by
      intro hu
      rw [eq_unitOf hu (by decide)] at hk
      cases hk
    unfold readBackslash
    dsimp only
    split
    case h_1 | h_2 => rfl
    case h_3 => simp only [hkey, false_and, if_false, readEscape_of_ne hk strict]

/-- Where nothing is referred to by name, it does not matter whether names are read. -/
theorem readLexeme_of_unreferring {u : CodeUnit} {us : List CodeUnit}
    (href : refersByName (u :: us) = false) (strict : Bool) :
    readLexeme strict u us = readLexeme false u us := by
  unfold readLexeme
  split
  case h_11 hu =>
    rw [eq_unitOf hu (by decide), refersByName_of_ne (by decide)] at href
    rw [readClass_of_unreferring href]
  case h_12 hu =>
    rw [eq_unitOf hu (by decide)] at href
    exact readBackslash_of_unreferring href strict
  all_goals rfl

theorem lexemes_of_unreferring {us : List CodeUnit} (href : refersByName us = false)
    (strict : Bool) : lexemes strict us = lexemes false us := by
  induction us using takes_induction with
  | nil => rfl
  | cons u us ih =>
    rw [lexemes_cons, lexemes_cons, readLexeme_of_unreferring href]
    cases hx : readLexeme false u us with
    | none => rfl
    | some found =>
      have htakes := takes_readLexeme hx
      simp only [Option.bind_some]
      rw [ih htakes (refersByName_of_takes htakes href)]

end Regex

end CaseFiles
