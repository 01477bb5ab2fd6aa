import CaseFiles.Proofs.Regex.Brackets

/-!
# Reading up to a parenthesis

No reader goes on past a closing parenthesis, unless it stands in a class or after a backslash. So
what is written before the parenthesis is read alike whatever comes after it. Main statement: the
lexemes of what is written up to a parenthesis stand in front of those of the rest
(`lexemes_append`), and an expression has the lexemes that it has on its own (`lexemes_closing`).
-/

namespace CaseFiles

namespace Regex

/-- What is read when there is more after the units, here from a closing parenthesis on. -/
def carry {α : Type} (t : List CodeUnit) (p : α × List CodeUnit) : α × List CodeUnit :=
  (p.1, p.2 ++ unitOf ')' :: t)

section

variable (t : List CodeUnit)

/-- Readers that are alike whatever comes after the parenthesis may follow one another. -/
theorem carry_bind {α β : Type} {found : Option (α × List CodeUnit)}
    {next next' : α × List CodeUnit → Option (β × List CodeUnit)}
    (h : ∀ p, found = some p → next' (carry t p) = (next p).map (carry t)) :
    (found.map (carry t)).bind next' = (found.bind next).map (carry t) := by
  cases found with
  | none => rfl
  | some p => exact h p rfl

theorem expect_append {c : Char} (hc : unitOf c ≠ unitOf ')') (us : List CodeUnit) :
    expect c (us ++ unitOf ')' :: t) = (expect c us).map (· ++ unitOf ')' :: t) := by
  cases us with
  | nil =>
    have hstop : isChar c (unitOf ')') = false := beq_false_of_ne hc.symm
    change (if isChar c (unitOf ')') then some t else none) = none
    rw [hstop]
    rfl
  | cons u us =>
    rw [List.cons_append, expect, expect]
    split <;> rfl

theorem dropWhile_append_closing {P : CodeUnit → Bool} (hP : P (unitOf ')') = false)
    (us : List CodeUnit) :
    (us ++ unitOf ')' :: t).dropWhile P = us.dropWhile P ++ unitOf ')' :: t := by
  induction us with
  | nil => rw [List.nil_append, List.dropWhile_cons_of_neg (by simp [hP])]; rfl
  | cons u us ih =>
    rw [List.cons_append, List.dropWhile_cons, List.dropWhile_cons, ih]
    split <;> rfl

theorem takeWhile_append_closing {P : CodeUnit → Bool} (hP : P (unitOf ')') = false)
    (us : List CodeUnit) : (us ++ unitOf ')' :: t).takeWhile P = us.takeWhile P := by
  induction us with
  | nil => rw [List.nil_append, List.takeWhile_cons_of_neg (by simp [hP])]; rfl
  | cons u us ih => rw [List.cons_append, List.takeWhile_cons, List.takeWhile_cons, ih]

theorem takeDigits_append (us : List CodeUnit) :
    takeDigits (us ++ unitOf ')' :: t) = carry t (takeDigits us) := by
  rw [takeDigits, takeWhile_append_closing t (by decide), dropWhile_append_closing t (by decide)]
  rfl

theorem readHex_append (n value : Nat) (us : List CodeUnit) :
    readHex n value (us ++ unitOf ')' :: t) = (readHex n value us).map (carry t) := by
  induction n generalizing us value with
  | zero => rfl
  | succ n ih =>
    cases us with
    | nil => rfl
    | cons u us =>
      change (hexValue? u).bind (fun d => readHex n (16 * value + d) (us ++ unitOf ')' :: t)) =
        ((hexValue? u).bind fun d => readHex n (16 * value + d) us).map (carry t)
      cases hexValue? u with
      | none => rfl
      | some d => exact ih _ us

theorem readOctal_append (n value : Nat) (us : List CodeUnit) :
    readOctal n value (us ++ unitOf ')' :: t) = carry t (readOctal n value us) := by
  induction n generalizing us value with
  | zero => cases us <;> rfl
  | succ n ih =>
    cases us with
    | nil => rfl
    | cons u us =>
      rw [List.cons_append, readOctal, readOctal]
      cases octalValue? u with
      | none => rfl
      | some d =>
        simp only
        split
        · exact ih _ us
        · rfl

theorem readEscape_append (strict member : Bool) (u : CodeUnit) (us : List CodeUnit) :
    readEscape strict member u (us ++ unitOf ')' :: t) =
      (readEscape strict member u us).map (carry t) := by
  have hcontrol : control? member (unitOf ')') = none := by cases member <;> rfl
  unfold readEscape
  split
  case h_6 =>
    cases us with
    | nil =>
      simp only [List.nil_append, List.head?_cons, Option.bind_some, hcontrol]
      rfl
    | cons v us =>
      simp only [List.cons_append, List.head?_cons, Option.bind_some]
      cases control? member v <;> rfl
  case h_7 =>
    rw [readHex_append]
    cases readHex 2 0 us <;> rfl
  case h_8 =>
    rw [readHex_append]
    cases readHex 4 0 us <;> rfl
  case h_9 => split <;> rfl
  case h_10 =>
    split
    · rw [readOctal_append]
      rfl
    · rfl
  all_goals rfl

theorem readClassAtom_append {strict : Bool} {u : CodeUnit} {us : List CodeUnit}
    (h : u = unitOf '\\' → us ≠ []) :
    readClassAtom strict u (us ++ unitOf ')' :: t) = (readClassAtom strict u us).map (carry t) := by
  unfold readClassAtom
  split
  · rename_i hu
    cases us with
    | nil => exact absurd rfl (h (beq_iff_eq.mp hu))
    | cons v us =>
      simp only [List.cons_append]
      split
      · rfl
      · split
        · rfl
        · rw [readEscape_append, Option.map_map, Option.map_map]
          rfl
  · rfl

/-- A class that is closed does not end with a backslash. -/
theorem ne_nil_of_closed {u : CodeUnit} {us : List CodeUnit} (h : openClass true (u :: us) = false)
    (hu : u = unitOf '\\') : us ≠ [] := by
  rintro rfl
  rw [hu] at h
  cases h

/-- What follows a member of a class is closed as well. -/
theorem closed_of_readClassAtom {strict : Bool} {u : CodeUnit} {us rest : List CodeUnit}
    {a : ClassAtom} (h : readClassAtom strict u us = some (a, rest)) (hu : isChar ']' u = false)
    (hclosed : openClass true (u :: us) = false) : openClass true rest = false := by
  rwa [← openClass_of_passes (passes_readClassAtom h (beq_eq_false_iff_ne.mp hu))]

theorem length_of_readClassAtom {strict : Bool} {u : CodeUnit} {us rest : List CodeUnit}
    {a : ClassAtom} (h : readClassAtom strict u us = some (a, rest)) :
    rest.length ≤ us.length := by
  unfold readClassAtom at h
  split at h
  · cases us with
    | nil => cases h
    | cons v us =>
      simp only at h
      split at h
      · obtain ⟨-, rfl⟩ := Prod.mk.inj (Option.some.inj h)
        exact Nat.le_succ _
      · split at h
        · obtain ⟨-, rfl⟩ := Prod.mk.inj (Option.some.inj h)
          exact Nat.le_succ _
        · obtain ⟨⟨w, after⟩, hescape, h⟩ := Option.map_eq_some_iff.mp h
          obtain ⟨-, rfl⟩ := Prod.mk.inj h
          exact (passes_escape hescape : Passes true _ _ ∧ _).2
  · obtain ⟨-, rfl⟩ := Prod.mk.inj (Option.some.inj h)
    exact Nat.le_refl _

theorem rangeEnd?_append {us : List CodeUnit} (hclosed : openClass true us = false) :
    rangeEnd? (us ++ unitOf ')' :: t) = (rangeEnd? us).map (carry t) := by
  cases us with
  | nil => cases hclosed
  | cons h us =>
    cases us with
    | nil =>
      have hhyphen : isChar '-' h = false := by
        refine beq_false_of_ne ?_
        rintro rfl
        cases hclosed
      rw [List.cons_append, List.nil_append, rangeEnd?.eq_def, rangeEnd?.eq_def]
      simp [hhyphen]
    | cons v vs =>
      rw [List.cons_append, List.cons_append, rangeEnd?, rangeEnd?]
      split <;> rfl

theorem addRange_carry (a b : ClassAtom) (p : Charset × List CodeUnit) :
    addRange a b (carry t p) = (addRange a b p).map (carry t) := by
  unfold addRange
  split
  · simp only [carry]
    split <;> rfl
  · rfl

/-- The members from a range on are closed if the class is, and they are not more. -/
theorem closed_of_rangeEnd? {strict : Bool} {us vs after : List CodeUnit} {v : CodeUnit}
    {b : ClassAtom} (hrange : rangeEnd? us = some (v, vs))
    (hb : readClassAtom strict v vs = some (b, after)) (hclosed : openClass true us = false) :
    openClass true after = false ∧ after.length ≤ us.length := by
  obtain ⟨rfl, hv⟩ := eq_of_rangeEnd? hrange
  have hlen := length_of_readClassAtom hb
  exact ⟨closed_of_readClassAtom hb hv hclosed,
    hlen.trans (Nat.le_succ_of_le (Nat.le_succ _))⟩

theorem readBehind_append {strict : Bool} {n m : Nat} {us : List CodeUnit} {a : ClassAtom}
    (hclosed : openClass true us = false)
    (hread : ∀ vs : List CodeUnit, openClass true vs = false → vs.length ≤ us.length →
      readMembers strict m (vs ++ unitOf ')' :: t) = (readMembers strict n vs).map (carry t)) :
    readBehind strict m a (us ++ unitOf ')' :: t) = (readBehind strict n a us).map (carry t) := by
  rw [readBehind, readBehind, rangeEnd?_append t hclosed]
  cases hrange : rangeEnd? us with
  | none =>
    simp only [Option.map_none]
    rw [hread us hclosed (Nat.le_refl _)]
    exact carry_bind t fun _ _ => rfl
  | some q =>
    obtain ⟨v, vs⟩ := q
    have hend : v = unitOf '\\' → vs ≠ [] := by
      obtain ⟨rfl, -⟩ := eq_of_rangeEnd? hrange
      exact ne_nil_of_closed hclosed
    simp only [Option.map_some, carry]
    rw [readClassAtom_append t hend]
    refine carry_bind t ?_
    rintro ⟨b, after⟩ hb
    obtain ⟨hafter, hlen⟩ := closed_of_rangeEnd? hrange hb hclosed
    simp only [carry]
    rw [hread after hafter hlen]
    exact carry_bind t fun p _ => addRange_carry t a b p

/-- A class that is closed is read alike with any fuel that is enough. -/
theorem readMembers_append {strict : Bool} {n m : Nat} {us : List CodeUnit}
    (hclosed : openClass true us = false) (hn : us.length ≤ n) (hm : us.length ≤ m) :
    readMembers strict m (us ++ unitOf ')' :: t) = (readMembers strict n us).map (carry t) := by
  induction n generalizing us m with
  | zero =>
    rw [List.eq_nil_of_length_eq_zero (Nat.le_zero.mp hn)] at hclosed
    cases hclosed
  | succ n ih =>
    cases us with
    | nil => cases hclosed
    | cons u us =>
      cases m with
      | zero => exact absurd hm (Nat.not_succ_le_zero _)
      | succ m =>
        rw [List.length_cons, Nat.add_le_add_iff_right] at hn hm
        rw [List.cons_append]
        cases hu : isChar ']' u with
        | true =>
          rw [readMembers_closing hu, readMembers_closing hu]
          rfl
        | false =>
          rw [readMembers_cons hu, readMembers_cons hu,
            readClassAtom_append t (ne_nil_of_closed hclosed)]
          refine carry_bind t ?_
          rintro ⟨a, rest⟩ ha
          have hlen := length_of_readClassAtom ha
          exact readBehind_append t (closed_of_readClassAtom ha hu hclosed) fun vs hvs hle =>
            ih hvs (hle.trans (hlen.trans hn)) (hle.trans (hlen.trans hm))

theorem readClass_append {strict : Bool} {us : List CodeUnit} (hclosed : openClass true us = false) :
    readClass strict (us ++ unitOf ')' :: t) = (readClass strict us).map (carry t) := by
  have hlen (vs : List CodeUnit) : vs.length ≤ (vs ++ unitOf ')' :: t).length := by
    rw [List.length_append]
    exact Nat.le_add_right _ _
  rw [readClass, readClass, expect_append t (by decide)]
  cases hcompl : expect '^' us with
  | none => exact readMembers_append t hclosed (Nat.le_refl _) (hlen us)
  | some rest =>
    have hrest : openClass true rest = false := by
      rwa [expect_eq_some hcompl, openClass_plain (by decide)] at hclosed
    simp only [Option.map_some]
    rw [readMembers_append t hrest (Nat.le_refl _) (hlen rest), Option.map_map, Option.map_map]
    rfl

theorem readCounts_append (us : List CodeUnit) :
    readCounts (us ++ unitOf ')' :: t) = (readCounts us).map (carry t) := by
  have hdigits (vs : List CodeUnit) : takeDigits (vs ++ unitOf ')' :: t) =
      ((takeDigits vs).1, (takeDigits vs).2 ++ unitOf ')' :: t) := takeDigits_append t vs
  unfold readCounts
  rw [hdigits]
  dsimp only
  by_cases hlow : (takeDigits us).1.isEmpty = true
  · rw [if_pos hlow, if_pos hlow]
    rfl
  · rw [if_neg hlow, if_neg hlow, expect_append t (by decide)]
    cases expect '}' (takeDigits us).2 with
    | some after => rfl
    | none =>
      dsimp only [Option.map_none]
      rw [expect_append t (by decide)]
      cases expect ',' (takeDigits us).2 with
      | none => rfl
      | some more =>
        dsimp only [Option.map_some, Option.bind_eq_bind, Option.bind_some]
        rw [hdigits]
        dsimp only
        rw [expect_append t (by decide)]
        cases expect '}' (takeDigits more).2 <;> rfl

theorem readGreed_append (least : Nat) (most : Option Nat) (us : List CodeUnit) :
    readGreed least most (us ++ unitOf ')' :: t) = carry t (readGreed least most us) := by
  rw [readGreed, readGreed, expect_append t (by decide)]
  cases expect '?' us <;> rfl

/-- Without a name, an angle bracket looks back. -/
theorem looks_back_of_nameless {vs : List CodeUnit}
    (h : namesGroup false (unitOf '(' :: unitOf '?' :: unitOf '<' :: vs) = false) :
    ∃ w rest, vs = w :: rest ∧ (w = unitOf '=' ∨ w = unitOf '!') := by
  rw [namesGroup.eq_def false (unitOf '(' :: _)] at h
  have hhead := (Bool.or_eq_false_iff.mp h).1
  cases vs with
  | nil => cases hhead
  | cons w rest =>
    change (!(isChar '=' w || isChar '!' w)) = false at hhead
    rw [Bool.not_eq_false', Bool.or_eq_true] at hhead
    exact ⟨w, rest, rfl, hhead.imp beq_iff_eq.mp beq_iff_eq.mp⟩

theorem readOpening_append {us : List CodeUnit} (hname : namesGroup false (unitOf '(' :: us) = false) :
    readOpening (us ++ unitOf ')' :: t) = (readOpening us).map (carry t) := by
  unfold readOpening
  rw [expect_append t (by decide)]
  cases hquestion : expect '?' us with
  | none => rfl
  | some rest =>
    cases rest with
    | nil => rfl
    | cons v vs =>
      simp only [Option.map_some, List.cons_append]
      split
      case h_4 hv =>
        rw [expect_eq_some hquestion, eq_unitOf hv (by decide)] at hname
        obtain ⟨w, rest, rfl, rfl | rfl⟩ := looks_back_of_nameless hname <;> rfl
      all_goals rfl

theorem readBackslash_append {strict : Bool} {us : List CodeUnit} (hne : us ≠ [])
    (href : refersByName (unitOf '\\' :: us) = false) :
    readBackslash strict (us ++ unitOf ')' :: t) = (readBackslash strict us).map (carry t) := by
  cases us with
  | nil => exact absurd rfl hne
  | cons u us =>
    unfold readBackslash
    simp only [List.cons_append]
    split
    case h_1 | h_2 => rfl
    case h_3 =>
      split
      · rfl
      · split
        · rw [takeDigits_append]
          rfl
        · have hk : ¬ (charOf u = 'k' ∧ strict = true) := by
            rintro ⟨hu, -⟩
            have := (refersByName_of_escape href).1
            rw [eq_unitOf hu (by decide)] at this
            cases this
          rw [if_neg hk, if_neg hk, readEscape_append, Option.map_map, Option.map_map]
          rfl

end

/-- What is written closes the classes that it opens, and it neither gives a name to a group nor
refers to one by its name. -/
structure Enclosed (us : List CodeUnit) : Prop where
  closed : openClass false us = false
  nameless : namesGroup false us = false
  unreferring : refersByName us = false

theorem Enclosed.tail {u : CodeUnit} {us rest : List CodeUnit} {x : Lexeme}
    (h : Enclosed (u :: us)) (htakes : Takes u us x rest) : Enclosed rest where
  closed := (openClass_of_takes htakes).symm.trans h.closed
  nameless := namesGroup_of_takes htakes h.nameless
  unreferring := refersByName_of_takes htakes h.unreferring

/-- A lexeme is read alike whatever comes after the parenthesis, unless the parenthesis stands right
after a backslash. -/
theorem readLexeme_append (t : List CodeUnit) {strict : Bool} {u : CodeUnit} {us : List CodeUnit}
    (h : Enclosed (u :: us)) (hne : u = unitOf '\\' → us ≠ []) :
    readLexeme strict u (us ++ unitOf ')' :: t) = (readLexeme strict u us).map (carry t) := by
  unfold readLexeme
  split
  case h_3 hu =>
    rw [eq_unitOf hu (by decide)] at h
    exact readOpening_append t h.nameless
  case h_7 | h_8 | h_9 =>
    rw [readGreed_append]
    rfl
  case h_10 =>
    rw [readCounts_append]
    cases readCounts us with
    | none => rfl
    | some found =>
      simp only [Option.map_some, carry]
      split
      · rw [readGreed_append]
        rfl
      · rfl
  case h_11 hu =>
    have hclosed := h.closed
    rw [eq_unitOf hu (by decide), openClass.eq_def false (unitOf '[' :: us)] at hclosed
    rw [readClass_append t hclosed, Option.map_map, Option.map_map]
    rfl
  case h_12 hu =>
    have hu := eq_unitOf hu (by decide)
    rw [hu] at h
    exact readBackslash_append t (hne hu) h.unreferring
  all_goals rfl

/-- Fuel for the units that are left is enough. -/
theorem readLexemes_fuel {strict : Bool} {n m : Nat} {us : List CodeUnit} (hn : us.length ≤ n)
    (hm : us.length ≤ m) : readLexemes strict n us = readLexemes strict m us := by
  induction n generalizing us m with
  | zero =>
    rw [List.eq_nil_of_length_eq_zero (Nat.le_zero.mp hn), readLexemes_nil, readLexemes_nil]
  | succ n ih =>
    cases us with
    | nil => rw [readLexemes_nil, readLexemes_nil]
    | cons u us =>
      cases m with
      | zero => exact absurd hm (Nat.not_succ_le_zero _)
      | succ m =>
        rw [List.length_cons, Nat.add_le_add_iff_right] at hn hm
        rw [readLexemes, readLexemes]
        cases hx : readLexeme strict u us with
        | none => rfl
        | some found =>
          have hlen := (takes_readLexeme hx).length_le
          simp only [Option.bind_eq_bind, Option.bind_some]
          rw [ih (hlen.trans hn) (hlen.trans hm)]

/-- The lexemes after the first are those of what it leaves. -/
theorem lexemes_cons (strict : Bool) (u : CodeUnit) (us : List CodeUnit) :
    lexemes strict (u :: us) =
      (readLexeme strict u us).bind fun p => (lexemes strict p.2).map (p.1 :: ·) := by
  rw [lexemes, List.length_cons, readLexemes]
  cases hx : readLexeme strict u us with
  | none => rfl
  | some found =>
    simp only [Option.bind_eq_bind, Option.bind_some]
    rw [readLexemes_fuel (takes_readLexeme hx).length_le (Nat.le_refl _), ← lexemes]
    cases lexemes strict found.2 <;> rfl

/-- What is read off in front stands in front of the lexemes of the rest. -/
theorem Peels.lexemes_eq {strict : Bool} {us rest : List CodeUnit} {xs : List Lexeme}
    (h : Peels strict us xs rest) : lexemes strict us = (lexemes strict rest).map (xs ++ ·) := by
  induction h with
  | nil us => exact Option.map_id'.symm
  | cons hx _ _ ih =>
    rw [lexemes_cons, hx, Option.bind_some, ih, Option.map_map]
    rfl

/-- The lexemes of a text and of what is behind it, where both have some. -/
def chain (front behind : Option (List Lexeme)) : Option (List Lexeme) :=
  front.bind fun xs => behind.map (xs ++ ·)

theorem map_cons_chain (x : Lexeme) (front behind : Option (List Lexeme)) :
    (chain front behind).map (x :: ·) = chain (front.map (x :: ·)) behind := by
  cases front with
  | none => rfl
  | some xs => exact Option.map_map _ _ _

/-- What is written up to a parenthesis has the same lexemes whatever comes after it, even if a
backslash takes its meaning from the parenthesis. -/
theorem lexemes_append {strict : Bool} {us : List CodeUnit} (h : Enclosed us) (t : List CodeUnit) :
    lexemes strict (us ++ unitOf ')' :: t) =
      chain (lexemes strict (us ++ [unitOf ')'])) (lexemes strict t) := by
  induction us using takes_induction with
  | nil => rw [List.nil_append, List.nil_append, lexemes_cons, lexemes_cons]; rfl
  | cons u us ih =>
    by_cases hne : u = unitOf '\\' → us ≠ []
    · rw [List.cons_append, List.cons_append, lexemes_cons, lexemes_cons,
        readLexeme_append t h hne, readLexeme_append [] h hne]
      cases hx : readLexeme strict u us with
      | none => rfl
      | some found =>
        have htakes := takes_readLexeme hx
        simp only [Option.map_some, Option.bind_some, carry]
        rw [ih htakes (h.tail htakes), map_cons_chain]
    · obtain ⟨rfl, rfl⟩ : u = unitOf '\\' ∧ us = [] := by
        simpa using hne
      rw [List.cons_append, List.cons_append, lexemes_cons, lexemes_cons]
      rfl

/-- An expression on its own closes the classes that it opens. -/
theorem closed_of_lexemes {strict : Bool} {us : List CodeUnit} {xs : List Lexeme}
    (h : lexemes strict us = some xs) : openClass false us = false := by
  induction us using takes_induction generalizing xs with
  | nil => rfl
  | cons u us ih =>
    rw [lexemes_cons] at h
    obtain ⟨⟨x, rest⟩, hx, h⟩ := Option.bind_eq_some_iff.mp h
    obtain ⟨more, hmore, -⟩ := Option.map_eq_some_iff.mp h
    have htakes := takes_readLexeme hx
    rw [openClass_of_takes htakes]
    exact ih htakes hmore

/-- Before a parenthesis an expression has the lexemes that it has on its own. -/
theorem lexemes_closing {strict : Bool} {us : List CodeUnit} {xs : List Lexeme} (h : Enclosed us)
    (hxs : lexemes strict us = some xs) :
    lexemes strict (us ++ [unitOf ')']) = some (xs ++ [.closing]) := by
  induction us using takes_induction generalizing xs with
  | nil =>
    obtain rfl := Option.some.inj hxs
    rfl
  | cons u us ih =>
    rw [lexemes_cons] at hxs
    obtain ⟨⟨x, rest⟩, hx, hxs⟩ := Option.bind_eq_some_iff.mp hxs
    obtain ⟨more, hmore, rfl⟩ := Option.map_eq_some_iff.mp hxs
    have hne : u = unitOf '\\' → us ≠ [] := by
      rintro rfl rfl
      cases hx
    have htakes := takes_readLexeme hx
    rw [List.cons_append, lexemes_cons, readLexeme_append [] h hne, hx]
    simp only [Option.map_some, Option.bind_some, carry]
    rw [ih htakes (h.tail htakes) hmore]
    rfl

end Regex

end CaseFiles
