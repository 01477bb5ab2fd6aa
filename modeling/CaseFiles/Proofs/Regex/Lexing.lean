import CaseFiles.Proofs.Regex.Fragment
import CaseFiles.Regex.Parse

/-!
# The lexemes of written text and fragments

A written piece is read off lexeme by lexeme whatever comes after it, except that a quantifier must
not be followed by a question mark. No written fragment begins with one. Main statement: the
lexemes of a fragment are read off in front of any text that does not begin with a question mark
(`lexes_fragment`).
-/

namespace CaseFiles

namespace Regex

/-- The units are read as exactly these lexemes, with any fuel that is enough for their number. -/
def Lexes (strict : Bool) (us : List CodeUnit) (xs : List Lexeme) : Prop :=
  ∀ n, us.length ≤ n → readLexemes strict n us = some xs

/-- No question mark comes first. -/
def NotLazy (us : List CodeUnit) : Prop := us.head? ≠ some (unitOf '?')

theorem readLexemes_nil (strict : Bool) (n : Nat) : readLexemes strict n [] = some [] := by
  cases n <;> rfl

theorem Lexes.nil (strict : Bool) : Lexes strict [] [] := fun n _ => readLexemes_nil strict n

/-- One lexeme is read off, and then the rest. -/
theorem Lexes.cons {strict : Bool} {u : CodeUnit} {us rest : List CodeUnit} {x : Lexeme}
    {xs : List Lexeme} (hx : readLexeme strict u us = some (x, rest))
    (hlen : rest.length ≤ us.length) (hrest : Lexes strict rest xs) :
    Lexes strict (u :: us) (x :: xs) := by
  intro n hn
  cases n with
  | zero => exact absurd hn (by simp)
  | succ n =>
    rw [List.length_cons] at hn
    simp [readLexemes, hx, hrest n (by omega)]

/-- Reading goes on after the first lexeme. -/
theorem exists_of_readLexemes_cons {strict : Bool} {n : Nat} {u : CodeUnit} {us : List CodeUnit}
    {ws : List Lexeme} (h : readLexemes strict n (u :: us) = some ws) :
    ∃ m x rest xs, n = m + 1 ∧ readLexeme strict u us = some (x, rest) ∧
      readLexemes strict m rest = some xs ∧ ws = x :: xs := by
  cases n with
  | zero => exact nomatch h
  | succ n =>
    obtain ⟨⟨x, rest⟩, hx, h⟩ := Option.bind_eq_some_iff.mp h
    obtain ⟨xs, hxs, h⟩ := Option.bind_eq_some_iff.mp h
    exact ⟨n, x, rest, xs, rfl, hx, hxs, (Option.some.inj h).symm⟩

/-- Some lexemes are read off one after the other, and units are left. -/
inductive Peels (strict : Bool) : List CodeUnit → List Lexeme → List CodeUnit → Prop
  | nil (us : List CodeUnit) : Peels strict us [] us
  | cons {u : CodeUnit} {us mid rest : List CodeUnit} {x : Lexeme} {xs : List Lexeme} :
      readLexeme strict u us = some (x, mid) → mid.length ≤ us.length →
      Peels strict mid xs rest → Peels strict (u :: us) (x :: xs) rest

/-- What is left decides how reading goes on. -/
theorem Peels.lexes {strict : Bool} {us rest : List CodeUnit} {xs zs : List Lexeme}
    (h : Peels strict us xs rest) (hrest : Lexes strict rest zs) : Lexes strict us (xs ++ zs) := by
  induction h with
  | nil us => exact hrest
  | cons hx hlen _ ih => exact Lexes.cons hx hlen (ih hrest)

/-- Whatever the units are read as begins with the lexemes that are read off. -/
theorem Peels.exists_rest {strict : Bool} {n : Nat} {us rest : List CodeUnit}
    {xs ws : List Lexeme} (h : Peels strict us xs rest) (hws : readLexemes strict n us = some ws) :
    ∃ m zs, ws = xs ++ zs ∧ readLexemes strict m rest = some zs := by
  induction h generalizing n ws with
  | nil us => exact ⟨n, ws, rfl, hws⟩
  | cons hx _ _ ih =>
    obtain ⟨n, y, after, more, rfl, hy, hmore, rfl⟩ := exists_of_readLexemes_cons hws
    obtain ⟨rfl, rfl⟩ := Prod.mk.inj (Option.some.inj (hx.symm.trans hy))
    obtain ⟨m, zs, rfl, hzs⟩ := ih hmore
    exact ⟨m, zs, rfl, hzs⟩

theorem lexemes_of_lexes {strict : Bool} {us : List CodeUnit} {xs : List Lexeme}
    (h : Lexes strict us xs) : lexemes strict us = some xs := h us.length (Nat.le_refl _)

/-- A character of the basic plane is its own unit. -/
theorem charUnits_of_basic {c : Char} (h : c.toNat < 0x10000) : Text.charUnits c = [unitOf c] := by
  simp [Text.charUnits, unitOf, h]

theorem charOf_unitOf {c : Char} (h : c.toNat < 0x10000) : charOf (unitOf c) = c := by
  rw [charOf, unitOf, UInt16.toNat_ofNat', Nat.mod_eq_of_lt h, Char.ofNat_toNat]

theorem toNat_lt_of_mem_special {c : Char} (h : c ∈ special) : c.toNat < 0x10000 := by
  simp only [special, List.mem_cons, List.not_mem_nil, or_false] at h
  rcases h with rfl | rfl | rfl | rfl | rfl | rfl | rfl | rfl | rfl | rfl | rfl | rfl | rfl | rfl <;>
    decide

/-- A unit whose character means nothing stands for itself. -/
theorem readLexeme_plain {strict : Bool} {u : CodeUnit} (h : charOf u ∉ special)
    (us : List CodeUnit) : readLexeme strict u us = some (.unit (.single u), us) := by
  unfold readLexeme
  split
  all_goals first
    | rfl
    | (rename_i hc; exact absurd (by rw [hc]; decide) h)

/-- A character that means something stands for itself after a backslash. -/
theorem readLexeme_escaped {strict : Bool} {c : Char} (h : c ∈ special) (us : List CodeUnit) :
    readLexeme strict (unitOf '\\') (unitOf c :: us) = some (.unit (.single (unitOf c)), us) := by
  simp only [special, List.mem_cons, List.not_mem_nil, or_false] at h
  rcases h with rfl | rfl | rfl | rfl | rfl | rfl | rfl | rfl | rfl | rfl | rfl | rfl | rfl | rfl <;>
    rfl

/-- The halves of a pair mean nothing. -/
theorem charOf_surrogate {u : CodeUnit} (h : Text.isLead u = true ∨ Text.isTrail u = true) :
    charOf u = '\x00' := by
  have hu : 0xD800 ≤ u.toNat ∧ u.toNat < 0xE000 := by
    simp only [Text.isLead, Text.isTrail, Bool.and_eq_true, decide_eq_true_eq,
      UInt16.le_iff_toNat_le, UInt16.toNat_ofNat] at h
    omega
  have hinvalid : ¬ u.toNat.isValidChar := by
    unfold Nat.isValidChar
    omega
  rw [charOf, Char.ofNat, dif_neg hinvalid]
  rfl

/-- The lexemes of a quoted character. -/
def charLexemes (c : Char) : List Lexeme := (Text.charUnits c).map fun u => .unit (.single u)

/-- A character that means something is quoted by a backslash. -/
theorem units_quoteChar_special {c : Char} (h : c ∈ special) :
    Text.units (quoteChar c) = [unitOf '\\', unitOf c] := by
  rw [quoteChar, if_pos h, Text.units_cons, Text.units_cons, Text.units_nil, List.append_nil,
    charUnits_of_basic (toNat_lt_of_mem_special h), charUnits_of_basic (by decide)]
  rfl

/-- Any other character is left as it is. -/
theorem units_quoteChar_plain {c : Char} (h : c ∉ special) :
    Text.units (quoteChar c) = Text.charUnits c := by
  rw [quoteChar, if_neg h, Text.units_cons, Text.units_nil, List.append_nil]

/-- A quoted character is read off in front of any text. -/
theorem peels_quoteChar {strict : Bool} (c : Char) (rest : List CodeUnit) :
    Peels strict (Text.units (quoteChar c) ++ rest) (charLexemes c) rest := by
  by_cases hs : c ∈ special
  · rw [units_quoteChar_special hs, charLexemes, charUnits_of_basic (toNat_lt_of_mem_special hs)]
    exact .cons (readLexeme_escaped hs rest) (Nat.le_succ _) (.nil rest)
  · rw [units_quoteChar_plain hs, charLexemes]
    by_cases hc : c.toNat < 0x10000
    · rw [charUnits_of_basic hc]
      exact .cons (readLexeme_plain (by rwa [charOf_unitOf hc]) rest) (Nat.le_refl _) (.nil rest)
    · obtain ⟨u, v, hu, hl, ht, -⟩ := Text.charUnits_pair hc
      have hplain {w : CodeUnit} (hw : Text.isLead w = true ∨ Text.isTrail w = true) :
          charOf w ∉ special := by
        rw [charOf_surrogate hw]
        decide
      rw [hu]
      exact .cons (readLexeme_plain (hplain (Or.inl hl)) _) (Nat.le_refl _)
        (.cons (readLexeme_plain (hplain (Or.inr ht)) _) (Nat.le_refl _) (.nil rest))

theorem lexes_quoteChar {strict : Bool} (c : Char) {rest : List CodeUnit} {xs : List Lexeme}
    (h : Lexes strict rest xs) :
    Lexes strict (Text.units (quoteChar c) ++ rest) (charLexemes c ++ xs) :=
  (peels_quoteChar c rest).lexes h

/-- The set that a written set is read as. -/
def Shorthand.charset : Shorthand → Charset
  | point => .notLineEnd
  | digit => .digit
  | word => .word
  | blank => .blank

/-- The quantifier that a mark is read as. -/
def Repeat.quantifier : Repeat → Quantifier
  | star => ⟨0, none, true⟩
  | plus => ⟨1, none, true⟩
  | opt => ⟨0, some 1, true⟩

/-- The lexemes of a fragment. -/
def Fragment.lexemes {k : Rank} : Fragment k → List Lexeme
  | set s => [.unit s.charset]
  | char c _ => charLexemes c
  | group body => .opening .plain :: body.lexemes ++ [.closing]
  | once a => a.lexemes
  | repeated a r => a.lexemes ++ [.quantifier r.quantifier]
  | empty => []
  | cons t rest => t.lexemes ++ rest.lexemes
  | only r => r.lexemes
  | or r rest => r.lexemes ++ .bar :: rest.lexemes

theorem expect_question {us : List CodeUnit} (h : NotLazy us) : expect '?' us = none := by
  cases us with
  | nil => rfl
  | cons u us =>
    have hu : isChar '?' u = false := by
      rw [isChar, beq_eq_false_iff_ne]
      exact fun he => h (congrArg some he)
    rw [expect, hu]
    rfl

theorem lexes_shorthand {strict : Bool} (s : Shorthand) {rest : List CodeUnit} {xs : List Lexeme}
    (h : Lexes strict rest xs) :
    Lexes strict (Text.units s.text ++ rest) (.unit s.charset :: xs) := by
  cases s with
  | point => exact Lexes.cons rfl (Nat.le_refl _) h
  | digit | word | blank => exact Lexes.cons rfl (Nat.le_succ _) h

theorem lexes_mark {strict : Bool} (r : Repeat) {rest : List CodeUnit} {xs : List Lexeme}
    (hrest : NotLazy rest) (h : Lexes strict rest xs) :
    Lexes strict (unitOf r.mark :: rest) (.quantifier r.quantifier :: xs) := by
  refine Lexes.cons ?_ (Nat.le_refl _) h
  have hgreed (least : Nat) (most : Option Nat) :
      readGreed least most rest = (.quantifier ⟨least, most, true⟩, rest) := by
    rw [readGreed, expect_question hrest]
  cases r with
  | star => exact congrArg some (hgreed 0 none)
  | plus => exact congrArg some (hgreed 1 none)
  | opt => exact congrArg some (hgreed 0 (some 1))

/-- A quoted character does not begin with a question mark. -/
theorem notLazy_quoteChar (c : Char) (rest : List CodeUnit) :
    NotLazy (Text.units (quoteChar c) ++ rest) := by
  by_cases hs : c ∈ special
  · rw [units_quoteChar_special hs]
    simp [NotLazy, unitOf]
  · rw [units_quoteChar_plain hs]
    by_cases hc : c.toNat < 0x10000
    · rw [charUnits_of_basic hc]
      intro h
      have hq : c = '?' := by
        rw [← charOf_unitOf hc, Option.some.inj h]
        rfl
      exact hs (by rw [hq]; decide)
    · obtain ⟨u, v, hu, hl, -, -⟩ := Text.charUnits_pair hc
      rw [hu]
      intro h
      rw [Option.some.inj h] at hl
      exact absurd hl (by decide)

/-- No atom begins with a question mark. -/
theorem notLazy_atom (a : Fragment .atom) (rest : List CodeUnit) :
    NotLazy (Text.units a.text ++ rest) := by
  cases a with
  | set s => cases s <;> simp [NotLazy, Fragment.text, Shorthand.text, Text.charUnits, unitOf]
  | char c _ => exact notLazy_quoteChar c rest
  | group body => simp [NotLazy, Fragment.text, Text.charUnits, unitOf]

/-- No fragment begins with a question mark. -/
theorem notLazy_fragment {k : Rank} (x : Fragment k) {rest : List CodeUnit}
    (h : NotLazy rest) : NotLazy (Text.units x.text ++ rest) := by
  induction x generalizing rest with
  | set s => exact notLazy_atom (.set s) rest
  | char c basic => exact notLazy_atom (.char c basic) rest
  | group body _ => exact notLazy_atom (.group body) rest
  | once a ih => exact ih h
  | repeated a r _ =>
    rw [Fragment.text, Text.units_append, List.append_assoc]
    exact notLazy_atom a _
  | empty => exact h
  | cons t more iht ihr =>
    rw [Fragment.text, Text.units_append, List.append_assoc]
    exact iht (ihr h)
  | only r ih => exact ih h
  | or r more ihr _ =>
    rw [Fragment.text, Text.units_append, List.append_assoc]
    exact ihr (by simp [NotLazy, Text.charUnits, unitOf])

/-- The lexemes of a fragment are read off in front of any text that does not begin with a question
mark; after an atom there may be one. -/
theorem lexes_fragment {strict : Bool} {k : Rank} (x : Fragment k) {rest : List CodeUnit}
    {xs : List Lexeme} (hrest : k = .atom ∨ NotLazy rest) (h : Lexes strict rest xs) :
    Lexes strict (Text.units x.text ++ rest) (x.lexemes ++ xs) := by
  induction x generalizing rest xs with
  | set s => exact lexes_shorthand s h
  | char c _ => exact lexes_quoteChar c h
  | group body ih =>
    have hclose : Lexes strict (unitOf ')' :: rest) (.closing :: xs) :=
      Lexes.cons rfl (Nat.le_refl _) h
    have hbody := ih (Or.inr (by simp [NotLazy, unitOf])) hclose
    have hopen : Lexes strict
        (unitOf '(' :: unitOf '?' :: unitOf ':' :: (Text.units body.text ++ unitOf ')' :: rest))
        (.opening .plain :: (body.lexemes ++ .closing :: xs)) :=
      Lexes.cons rfl (by simp only [List.length_cons]; omega) hbody
    simpa [Fragment.text, Fragment.lexemes, Text.charUnits, unitOf] using hopen
  | once a ih => exact ih (Or.inl rfl) h
  | repeated a r ih =>
    have hmark := lexes_mark r (hrest.resolve_left (by simp)) h
    have hunit : Text.charUnits r.mark = [unitOf r.mark] := by cases r <;> rfl
    simpa [Fragment.text, Fragment.lexemes, hunit] using ih (Or.inl rfl) hmark
  | empty => exact h
  | cons t more iht ihr =>
    have hnot := hrest.resolve_left (by simp)
    have hmore := iht (Or.inr (notLazy_fragment more hnot)) (ihr (Or.inr hnot) h)
    simpa [Fragment.text, Fragment.lexemes] using hmore
  | only r ih => exact ih (Or.inr (hrest.resolve_left (by simp))) h
  | or r more ihr ihm =>
    have hbar : Lexes strict (unitOf '|' :: (Text.units more.text ++ rest))
        (.bar :: (more.lexemes ++ xs)) :=
      Lexes.cons rfl (Nat.le_refl _) (ihm (Or.inr (hrest.resolve_left (by simp))) h)
    have hrow := ihr (Or.inr (by simp [NotLazy, unitOf])) hbar
    simpa [Fragment.text, Fragment.lexemes, Text.charUnits, unitOf] using hrow

/-- The characters that may stand in the name of a group as they are. -/
def NameChar (c : Char) : Prop := c.toNat < 0x10000 ∧ c ≠ '>' ∧ c ≠ '\\'

theorem readNameChar_plain {c : Char} (h : NameChar c) (us : List CodeUnit) :
    readNameChar (unitOf c) us = some (c, us) := by
  obtain ⟨-, -, hl, -⟩ := Text.charUnits_basic h.1
  have hslash : isChar '\\' (unitOf c) = false := by
    rw [isChar, beq_eq_false_iff_ne]
    intro he
    apply h.2.2
    rw [← charOf_unitOf h.1, he]
    rfl
  have hlead : Text.isLead (unitOf c) = false := hl
  simp [readNameChar, hslash, hlead, charOf_unitOf h.1]

/-- A name is read up to the bracket after it. -/
theorem readNameChars_append {name : Text} (h : ∀ c ∈ name, NameChar c) {n : Nat}
    (hn : name.length < n) (rest : List CodeUnit) :
    readNameChars n (Text.units name ++ unitOf '>' :: rest) = some (name, rest) := by
  induction name generalizing n with
  | nil =>
    cases n with
    | zero => exact absurd hn (by simp)
    | succ n => rfl
  | cons c name ih =>
    have hc := h c List.mem_cons_self
    cases n with
    | zero => exact absurd hn (by simp)
    | succ n =>
      have hrec := ih (fun d hd => h d (List.mem_cons_of_mem c hd)) (Nat.lt_of_succ_lt_succ hn)
      rw [Text.units_cons, charUnits_of_basic hc.1]
      simp [readNameChars, readNameChar_plain hc, hc.2.1, hrec]

/-- The characters of such a name are as many as its units. -/
theorem length_units_name {name : Text} (h : ∀ c ∈ name, NameChar c) :
    (Text.units name).length = name.length := by
  induction name with
  | nil => rfl
  | cons c name ih =>
    have hname := ih fun d hd => h d (List.mem_cons_of_mem c hd)
    rw [Text.units_cons, charUnits_of_basic (h c List.mem_cons_self).1, List.length_append, hname,
      List.length_singleton, List.length_cons, Nat.add_comm]

/-- An identifier without escapes is read as a name. -/
theorem readName_append {name : Text} (h : ∀ c ∈ name, NameChar c)
    (hid : Text.isIdentifier name = true) (rest : List CodeUnit) :
    readName (Text.units name ++ unitOf '>' :: rest) = some (name, rest) := by
  have hfuel : name.length < (Text.units name ++ unitOf '>' :: rest).length := by
    rw [List.length_append, length_units_name h, List.length_cons]
    omega
  rw [readName, readNameChars_append h hfuel rest]
  simp [hid]

end Regex

end CaseFiles
