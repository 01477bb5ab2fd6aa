import CaseFiles.Proofs.Regex.Lexing

/-!
# Units that open and close nothing

Whatever else an expression is read as, parentheses and brackets are all that opens and closes
something in it, and a backslash takes one of them its meaning. So what is in force at a place (a
class that is open, a group that has a name) is decided by the units alone, and reading a lexeme
passes over nothing that would change it. Main statement: how a lexeme is taken off the units
(`takes_readLexeme`).
-/

namespace CaseFiles

namespace Regex

/-- The units that open or close something, and the backslash. -/
def brackets : List CodeUnit := [unitOf '\\', unitOf '[', unitOf ']', unitOf '(', unitOf ')']

theorem forall_mem_brackets {P : CodeUnit → Prop} : (∀ v ∈ brackets, P v) ↔
    P (unitOf '\\') ∧ P (unitOf '[') ∧ P (unitOf ']') ∧ P (unitOf '(') ∧ P (unitOf ')') := by
  simp only [brackets, List.forall_mem_cons, List.not_mem_nil, false_implies, implies_true, and_true]

/-- From one text to the other nothing is opened or closed. -/
inductive Passes (inClass : Bool) : List CodeUnit → List CodeUnit → Prop
  | refl (us : List CodeUnit) : Passes inClass us us
  | plain {u : CodeUnit} {us rest : List CodeUnit} :
      u ∉ brackets → Passes inClass us rest → Passes inClass (u :: us) rest
  | escaped {u : CodeUnit} {us rest : List CodeUnit} :
      Passes inClass us rest → Passes inClass (unitOf '\\' :: u :: us) rest
  /-- A backslash that stands for itself. -/
  | alone {u : CodeUnit} {us rest : List CodeUnit} :
      u ∉ brackets → Passes inClass (u :: us) rest →
      Passes inClass (unitOf '\\' :: u :: us) rest
  /-- In a class only the bracket closes something. -/
  | member {u : CodeUnit} {us rest : List CodeUnit} :
      inClass = true → u ≠ unitOf '\\' → u ≠ unitOf ']' → Passes inClass us rest →
      Passes inClass (u :: us) rest

theorem Passes.trans {inClass : Bool} {us vs ws : List CodeUnit} (h : Passes inClass us vs)
    (h' : Passes inClass vs ws) : Passes inClass us ws := by
  induction h with
  | refl us => exact h'
  | plain hu _ ih => exact .plain hu (ih h')
  | escaped _ ih => exact .escaped (ih h')
  | alone hu _ ih => exact .alone hu (ih h')
  | member hclass hescape hclose _ ih => exact .member hclass hescape hclose (ih h')

theorem Passes.length_le {inClass : Bool} {us rest : List CodeUnit} (h : Passes inClass us rest) :
    rest.length ≤ us.length := by
  induction h with
  | refl us => exact Nat.le_refl _
  | plain _ _ ih | member _ _ _ _ ih => exact Nat.le_succ_of_le ih
  | escaped _ ih => exact Nat.le_succ_of_le (Nat.le_succ_of_le ih)
  | alone _ _ ih => exact Nat.le_succ_of_le ih

theorem passes_plain {inClass : Bool} {u : CodeUnit} (h : u ∉ brackets) (us : List CodeUnit) :
    Passes inClass (u :: us) us :=
  .plain h (.refl us)

theorem isChar_eq_false {c : Char} {u : CodeUnit} (hu : u ∉ brackets) (hc : unitOf c ∈ brackets) :
    isChar c u = false := by
  rw [isChar, beq_eq_false_iff_ne]
  rintro rfl
  exact hu hc

/-- The unit of a character that means something is told by the character. -/
theorem eq_unitOf {u : CodeUnit} {c : Char} (h : charOf u = c) (hc : c ≠ '\x00') :
    u = unitOf c := by
  have hvalid : u.toNat.isValidChar := by
    by_contra hinvalid
    exact hc (h.symm.trans (by rw [charOf, Char.ofNat, dif_neg hinvalid]; rfl))
  have hnat : c.toNat = u.toNat := by
    rw [← h, charOf, Char.ofNat, dif_pos hvalid]
    rfl
  rw [unitOf, hnat]
  exact UInt16.ofNat_toNat.symm

theorem expect_eq_some {c : Char} {us rest : List CodeUnit} (h : expect c us = some rest) :
    us = unitOf c :: rest := by
  cases us with
  | nil => cases h
  | cons u us =>
    rw [expect] at h
    split at h
    · rename_i hu
      rw [beq_iff_eq.mp hu, Option.some.inj h]
    · cases h

section

variable {inClass : Bool} {us rest : List CodeUnit}

theorem passes_dropWhile {P : CodeUnit → Bool} (hP : ∀ v ∈ brackets, P v = false)
    (us : List CodeUnit) : Passes inClass us (us.dropWhile P) := by
  induction us with
  | nil => exact Passes.refl []
  | cons u us ih =>
    cases hu : P u with
    | true =>
      rw [List.dropWhile_cons_of_pos hu]
      exact (passes_plain (fun hmem => by rw [hP u hmem] at hu; exact nomatch hu) us).trans ih
    | false =>
      rw [List.dropWhile_cons_of_neg (by rw [hu]; exact Bool.false_ne_true)]
      exact Passes.refl _

theorem passes_takeDigits {digits : List Char} (h : takeDigits us = (digits, rest)) :
    Passes inClass us rest := by
  rw [← (Prod.mk.inj h).2]
  exact passes_dropWhile (forall_mem_brackets.mpr (by decide)) us

theorem hexValue?_brackets : ∀ v ∈ brackets, hexValue? v = none :=
  forall_mem_brackets.mpr (by decide)

theorem octalValue?_brackets : ∀ v ∈ brackets, octalValue? v = none :=
  forall_mem_brackets.mpr (by decide)

theorem passes_readHex {n value result : Nat} (h : readHex n value us = some (result, rest)) :
    Passes inClass us rest := by
  induction n generalizing us value with
  | zero =>
    obtain ⟨-, rfl⟩ := Prod.mk.inj (Option.some.inj h)
    exact Passes.refl us
  | succ n ih =>
    cases us with
    | nil => cases h
    | cons u us =>
      obtain ⟨d, hd, hrest⟩ := Option.bind_eq_some_iff.mp h
      refine (passes_plain (fun hmem => ?_) us).trans (ih hrest)
      rw [hexValue?_brackets u hmem] at hd
      cases hd

theorem passes_readOctal {n value result : Nat} (h : readOctal n value us = (result, rest)) :
    Passes inClass us rest := by
  induction n generalizing us value with
  | zero =>
    obtain ⟨-, rfl⟩ := Prod.mk.inj h
    exact Passes.refl us
  | succ n ih =>
    cases us with
    | nil =>
      obtain ⟨-, rfl⟩ := Prod.mk.inj h
      exact Passes.refl []
    | cons u us =>
      rw [readOctal] at h
      cases hd : octalValue? u with
      | none =>
        rw [hd] at h
        obtain ⟨-, rfl⟩ := Prod.mk.inj h
        exact Passes.refl _
      | some d =>
        simp only [hd] at h
        split at h
        · refine (passes_plain (fun hmem => ?_) us).trans (ih h)
          rw [octalValue?_brackets u hmem] at hd
          cases hd
        · obtain ⟨-, rfl⟩ := Prod.mk.inj h
          exact Passes.refl _

theorem control?_brackets (inClass : Bool) : ∀ v ∈ brackets, control? inClass v = none := by
  cases inClass <;> exact forall_mem_brackets.mpr (by decide)

/-- The letter after a backslash is passed over with what belongs to it, unless it is read again. -/
theorem passes_readEscape {strict member : Bool} {u v : CodeUnit}
    (h : readEscape strict member u us = some (v, rest)) :
    Passes inClass us rest ∨ u ∉ brackets ∧ rest = u :: us := by
  unfold readEscape at h
  split at h
  case h_6 hu =>
    split at h
    case h_1 w hcontrol =>
      obtain ⟨first, hfirst, hw⟩ := Option.bind_eq_some_iff.mp hcontrol
      cases us with
      | nil => cases hfirst
      | cons x us =>
        obtain rfl := Option.some.inj hfirst
        obtain ⟨-, rfl⟩ := Prod.mk.inj (Option.some.inj h)
        refine Or.inl (passes_plain (fun hmem => ?_) us)
        rw [control?_brackets member x hmem] at hw
        cases hw
    case h_2 =>
      obtain ⟨-, rfl⟩ := Prod.mk.inj (Option.some.inj h)
      refine Or.inr ⟨?_, rfl⟩
      rw [eq_unitOf hu (by decide)]
      decide
  case h_7 | h_8 =>
    split at h
    · rename_i hhex
      obtain ⟨-, rfl⟩ := Prod.mk.inj (Option.some.inj h)
      exact Or.inl (passes_readHex hhex)
    · obtain ⟨-, rfl⟩ := Prod.mk.inj (Option.some.inj h)
      exact Or.inl (Passes.refl us)
  case h_9 =>
    split at h
    · cases h
    · obtain ⟨-, rfl⟩ := Prod.mk.inj (Option.some.inj h)
      exact Or.inl (Passes.refl us)
  case h_10 =>
    split at h
    · obtain ⟨-, rfl⟩ := Prod.mk.inj (Option.some.inj h)
      exact Or.inl (passes_readOctal rfl)
    · obtain ⟨-, rfl⟩ := Prod.mk.inj (Option.some.inj h)
      exact Or.inl (Passes.refl us)
  all_goals
    obtain ⟨-, rfl⟩ := Prod.mk.inj (Option.some.inj h)
    exact Or.inl (Passes.refl us)

/-- An escape is passed over together with the backslash before it. -/
theorem passes_escape {strict member : Bool} {u v : CodeUnit}
    (h : readEscape strict member u us = some (v, rest)) :
    Passes inClass (unitOf '\\' :: u :: us) rest ∧ rest.length ≤ us.length + 1 := by
  rcases passes_readEscape h with hpass | ⟨hu, rfl⟩
  · exact ⟨.escaped hpass, Nat.le_succ_of_le hpass.length_le⟩
  · exact ⟨.alone hu (.refl _), Nat.le_refl _⟩

theorem passes_expect {c : Char} (hc : unitOf c ∉ brackets) (h : expect c us = some rest) :
    Passes inClass us rest := by
  rw [expect_eq_some h]
  exact passes_plain hc rest

theorem passes_readCode {value : Nat} (h : readCode us = some (value, rest)) :
    Passes inClass us rest := by
  unfold readCode at h
  split at h
  · rename_i inner hopen
    obtain ⟨after, hclose, h⟩ := Option.bind_eq_some_iff.mp h
    obtain ⟨⟨result, final⟩, -, h⟩ := Option.bind_eq_some_iff.mp h
    simp only at h
    split at h
    · cases h
    · obtain ⟨-, rfl⟩ := Prod.mk.inj (Option.some.inj h)
      have hdrop : inner.drop (inner.takeWhile fun u => (hexValue? u).isSome).length =
          inner.dropWhile fun u => (hexValue? u).isSome :=
        (congrArg (List.drop _) List.takeWhile_append_dropWhile.symm).trans List.drop_left
      rw [hdrop] at hclose
      have hhex : ∀ v ∈ brackets, (hexValue? v).isSome = false :=
        fun v hv => by rw [hexValue?_brackets v hv, Option.isSome_none]
      exact ((passes_expect (by decide) hopen).trans (passes_dropWhile hhex inner)).trans
        (passes_expect (by decide) hclose)
  · exact passes_readHex h

/-- A character that can stand in a name opens and closes nothing. -/
theorem isIdPart_brackets : ∀ v ∈ brackets, Text.isIdPart (charOf v) = false :=
  forall_mem_brackets.mpr (by decide +kernel)

theorem isLead_brackets : ∀ v ∈ brackets, Text.isLead v = false :=
  forall_mem_brackets.mpr (by decide)

theorem isTrail_brackets : ∀ v ∈ brackets, Text.isTrail v = false :=
  forall_mem_brackets.mpr (by decide)

theorem passes_readNameChar {u : CodeUnit} {c : Char} (h : readNameChar u us = some (c, rest))
    (hc : Text.isIdPart c = true ∨ c = '>') : Passes inClass (u :: us) rest := by
  unfold readNameChar at h
  split at h
  · rename_i hu
    obtain ⟨code, hcode, h⟩ := Option.bind_eq_some_iff.mp h
    obtain ⟨⟨value, after⟩, hvalue, h⟩ := Option.bind_eq_some_iff.mp h
    rw [beq_iff_eq.mp hu, expect_eq_some hcode]
    refine .escaped ((passes_readCode hvalue).trans ?_)
    simp only at h
    split at h
    · obtain ⟨low, hlow, h⟩ := Option.bind_eq_some_iff.mp h
      obtain ⟨⟨trail, final⟩, htrail, h⟩ := Option.bind_eq_some_iff.mp h
      obtain ⟨escape, hescape, hlow⟩ := Option.bind_eq_some_iff.mp hlow
      simp only at h
      split at h
      · obtain ⟨-, rfl⟩ := Prod.mk.inj (Option.some.inj h)
        rw [expect_eq_some hescape, expect_eq_some hlow]
        exact .escaped (passes_readHex htrail)
      · cases h
    · obtain ⟨-, rfl⟩ := Prod.mk.inj (Option.some.inj h)
      exact Passes.refl after
  · split at h
    · rename_i hlead
      obtain ⟨v, hv, h⟩ := Option.bind_eq_some_iff.mp h
      split at h
      · rename_i htrail
        cases us with
        | nil => cases hv
        | cons w us =>
          obtain rfl := Option.some.inj hv
          obtain ⟨-, rfl⟩ := Prod.mk.inj (Option.some.inj h)
          refine (passes_plain (fun hmem => ?_) _).trans (passes_plain (fun hmem => ?_) us)
          · rw [isLead_brackets u hmem] at hlead
            cases hlead
          · rw [isTrail_brackets w hmem] at htrail
            cases htrail
      · cases h
    · obtain ⟨rfl, rfl⟩ := Prod.mk.inj (Option.some.inj h)
      refine passes_plain (fun hmem => ?_) us
      rcases hc with hc | hc
      · rw [isIdPart_brackets u hmem] at hc
        cases hc
      · rw [eq_unitOf hc (by decide)] at hmem
        exact absurd hmem (by decide)

theorem passes_readNameChars {n : Nat} {name : Text} (h : readNameChars n us = some (name, rest))
    (hname : ∀ c ∈ name, Text.isIdPart c = true) : Passes inClass us rest := by
  induction n generalizing us name with
  | zero => cases h
  | succ n ih =>
    cases us with
    | nil => cases h
    | cons u us =>
      obtain ⟨⟨c, after⟩, hc, h⟩ := Option.bind_eq_some_iff.mp h
      simp only at h
      split at h
      · rename_i hend
        obtain ⟨-, rfl⟩ := Prod.mk.inj (Option.some.inj h)
        exact passes_readNameChar hc (Or.inr hend)
      · obtain ⟨⟨more, final⟩, hmore, h⟩ := Option.bind_eq_some_iff.mp h
        obtain ⟨rfl, rfl⟩ := Prod.mk.inj (Option.some.inj h)
        exact (passes_readNameChar hc (Or.inl (hname c List.mem_cons_self))).trans
          (ih hmore fun d hd => hname d (List.mem_cons_of_mem c hd))

theorem passes_readName {name : Text} (h : readName us = some (name, rest)) :
    Passes inClass us rest := by
  obtain ⟨⟨found, after⟩, hchars, h⟩ := Option.bind_eq_some_iff.mp h
  simp only at h
  split at h
  · rename_i hid
    obtain ⟨rfl, rfl⟩ := Prod.mk.inj (Option.some.inj h)
    refine passes_readNameChars hchars ?_
    cases found with
    | nil => exact fun _ hc => nomatch hc
    | cons first more =>
      obtain ⟨hfirst, hmore⟩ := Bool.and_eq_true_iff.mp hid
      intro c hc
      rcases List.mem_cons.mp hc with rfl | hc
      · simp [Text.isIdPart, hfirst]
      · exact List.all_eq_true.mp hmore c hc
  · cases h

theorem passes_readClassAtom {strict : Bool} {u : CodeUnit} {a : ClassAtom}
    (h : readClassAtom strict u us = some (a, rest)) (hclose : u ≠ unitOf ']') :
    Passes true (u :: us) rest := by
  unfold readClassAtom at h
  split at h
  · rename_i hu
    rw [beq_iff_eq.mp hu]
    cases us with
    | nil => cases h
    | cons v vs =>
      simp only at h
      split at h
      · obtain ⟨-, rfl⟩ := Prod.mk.inj (Option.some.inj h)
        exact .escaped (.refl vs)
      · split at h
        · obtain ⟨-, rfl⟩ := Prod.mk.inj (Option.some.inj h)
          exact .escaped (.refl vs)
        · obtain ⟨⟨w, after⟩, hescape, h⟩ := Option.map_eq_some_iff.mp h
          obtain ⟨-, rfl⟩ := Prod.mk.inj h
          exact (passes_escape hescape).1
  · rename_i hu
    obtain ⟨-, rfl⟩ := Prod.mk.inj (Option.some.inj h)
    exact .member rfl (fun he => hu (beq_iff_eq.mpr he)) hclose (.refl us)

/-- The end of a range and what is behind it, where a hyphen with an end after it comes next. -/
def rangeEnd? : List CodeUnit → Option (CodeUnit × List CodeUnit)
  | h :: v :: vs => if isChar '-' h ∧ !isChar ']' v then some (v, vs) else none
  | _ => none

theorem eq_of_rangeEnd? {v : CodeUnit} {vs : List CodeUnit} (h : rangeEnd? us = some (v, vs)) :
    us = unitOf '-' :: v :: vs ∧ isChar ']' v = false := by
  unfold rangeEnd? at h
  split at h
  · split at h
    · rename_i hrange
      obtain ⟨rfl, rfl⟩ := Prod.mk.inj (Option.some.inj h)
      exact ⟨by rw [beq_iff_eq.mp hrange.1], Bool.not_eq_true' _ ▸ hrange.2⟩
    · cases h
  · cases h

/-- Two ends with a hyphen between them, together with the members behind them. -/
def addRange (a b : ClassAtom) (p : Charset × List CodeUnit) :
    Option (Charset × List CodeUnit) :=
  match a, b with
  | .one first, .one last =>
    if first ≤ last then some (.union (.span first last) p.1, p.2) else none
  | _, _ => some (.union a.set (.union (.single (unitOf '-')) (.union b.set p.1)), p.2)

theorem snd_of_addRange {a b : ClassAtom} {p q : Charset × List CodeUnit}
    (h : addRange a b p = some q) : q.2 = p.2 := by
  unfold addRange at h
  split at h
  · split at h
    · rw [← Option.some.inj h]
    · cases h
  · rw [← Option.some.inj h]

/-- The members of a class from one that has been read on. -/
def readBehind (strict : Bool) (n : Nat) (a : ClassAtom) (us : List CodeUnit) :
    Option (Charset × List CodeUnit) :=
  match rangeEnd? us with
  | some (v, vs) =>
    (readClassAtom strict v vs).bind fun b => (readMembers strict n b.2).bind (addRange a b.1)
  | none => (readMembers strict n us).bind fun p => some (a.set.union p.1, p.2)

theorem readMembers_closing {u : CodeUnit} (hu : isChar ']' u = true) (strict : Bool) (n : Nat)
    (us : List CodeUnit) : readMembers strict (n + 1) (u :: us) = some (.none, us) := by
  rw [readMembers, if_pos hu]

theorem readMembers_cons {u : CodeUnit} (hu : isChar ']' u = false) (strict : Bool) (n : Nat)
    (us : List CodeUnit) : readMembers strict (n + 1) (u :: us) =
      (readClassAtom strict u us).bind fun a => readBehind strict n a.1 a.2 := by
  rw [readMembers, if_neg (Bool.eq_false_iff.mp hu)]
  refine congrArg (Option.bind _) (funext fun a => ?_)
  rw [readBehind.eq_def, rangeEnd?.eq_def]
  obtain ⟨a, rest⟩ := a
  cases rest with
  | nil => rfl
  | cons h rest =>
    cases rest with
    | nil => rfl
    | cons v vs =>
      simp only
      split <;> rfl

/-- The members of a class are passed over up to the bracket that closes it. -/
theorem passes_readMembers {strict : Bool} {n : Nat} {set : Charset}
    (h : readMembers strict n us = some (set, rest)) : Passes true us (unitOf ']' :: rest) := by
  induction n generalizing us set with
  | zero => cases h
  | succ n ih =>
    cases us with
    | nil => cases h
    | cons u us =>
      cases hu : isChar ']' u with
      | true =>
        rw [readMembers_closing hu] at h
        obtain ⟨-, rfl⟩ := Prod.mk.inj (Option.some.inj h)
        rw [beq_iff_eq.mp hu]
        exact .refl _
      | false =>
        rw [readMembers_cons hu] at h
        obtain ⟨⟨a, after⟩, ha, h⟩ := Option.bind_eq_some_iff.mp h
        refine (passes_readClassAtom ha (beq_eq_false_iff_ne.mp hu)).trans ?_
        simp only [readBehind] at h
        split at h
        · rename_i v vs hrange
          obtain ⟨⟨b, next⟩, hb, h⟩ := Option.bind_eq_some_iff.mp h
          obtain ⟨⟨more, final⟩, hmore, h⟩ := Option.bind_eq_some_iff.mp h
          obtain ⟨hafter, hv⟩ := eq_of_rangeEnd? hrange
          obtain rfl : rest = final := snd_of_addRange h
          rw [hafter]
          exact .plain (by decide)
            ((passes_readClassAtom hb (beq_eq_false_iff_ne.mp hv)).trans (ih hmore))
        · obtain ⟨⟨more, final⟩, hmore, h⟩ := Option.bind_eq_some_iff.mp h
          obtain ⟨-, rfl⟩ := Prod.mk.inj (Option.some.inj h)
          exact ih hmore

theorem passes_readClass {strict : Bool} {set : Charset}
    (h : readClass strict us = some (set, rest)) : Passes true us (unitOf ']' :: rest) := by
  unfold readClass at h
  split at h
  · rename_i inner hcompl
    obtain ⟨⟨members, after⟩, hmembers, h⟩ := Option.map_eq_some_iff.mp h
    obtain ⟨-, rfl⟩ := Prod.mk.inj h
    exact (passes_expect (by decide) hcompl).trans (passes_readMembers hmembers)
  · exact passes_readMembers h

theorem passes_readCounts {counts : Nat × Option Nat} (h : readCounts us = some (counts, rest)) :
    Passes inClass us rest := by
  unfold readCounts at h
  simp only at h
  split at h
  · cases h
  · have hlow : Passes inClass us (takeDigits us).2 := passes_takeDigits rfl
    split at h
    · rename_i after hclose
      obtain ⟨-, rfl⟩ := Prod.mk.inj (Option.some.inj h)
      exact hlow.trans (passes_expect (by decide) hclose)
    · obtain ⟨more, hcomma, h⟩ := Option.bind_eq_some_iff.mp h
      obtain ⟨after, hclose, h⟩ := Option.bind_eq_some_iff.mp h
      obtain ⟨-, rfl⟩ := Prod.mk.inj (Option.some.inj h)
      exact ((hlow.trans (passes_expect (by decide) hcomma)).trans (passes_takeDigits rfl)).trans
        (passes_expect (by decide) hclose)

theorem passes_readGreed (least : Nat) (most : Option Nat) (us : List CodeUnit) :
    Passes inClass us (readGreed least most us).2 := by
  unfold readGreed
  split
  · rename_i hlazy
    exact passes_expect (by decide) hlazy
  · exact Passes.refl us

/-- How many groups are open after a lexeme; the group one is in is closed if there is no answer. -/
def nest (depth : Nat) : Lexeme → Option Nat
  | .opening _ => some (depth + 1)
  | .closing => if depth = 0 then none else some (depth - 1)
  | _ => some depth

theorem nest_readGreed (least : Nat) (most : Option Nat) (us : List CodeUnit) (depth : Nat) :
    nest depth (readGreed least most us).1 = some depth := by
  unfold readGreed
  split <;> rfl

/-- What follows an opening parenthesis opens a group and nothing else. -/
theorem passes_readOpening {x : Lexeme} (h : readOpening us = some (x, rest)) :
    (∃ o, x = .opening o) ∧ Passes false us rest := by
  unfold readOpening at h
  split at h
  · obtain ⟨rfl, rfl⟩ := Prod.mk.inj (Option.some.inj h)
    exact ⟨⟨_, rfl⟩, Passes.refl us⟩
  · cases h
  · rename_i v vs hquestion
    have hskip (hv : v ∉ brackets) : Passes false us vs :=
      (passes_expect (by decide) hquestion).trans (passes_plain hv vs)
    have hmark {c : Char} (hc : c ≠ '\x00') (hb : unitOf c ∉ brackets) (hv : charOf v = c) :
        Passes false us vs := hskip (eq_unitOf hv hc ▸ hb)
    split at h
    case h_1 hv | h_2 hv | h_3 hv =>
      obtain ⟨rfl, rfl⟩ := Prod.mk.inj (Option.some.inj h)
      exact ⟨⟨_, rfl⟩, hmark (by decide) (by decide) hv⟩
    case h_4 hv =>
      have hbehind {c : Char} (hc : c ≠ '\x00') (hb : unitOf c ∉ brackets)
          (hhead : vs.head?.map charOf = some c) : Passes false vs vs.tail := by
        obtain ⟨w, hw, hchar⟩ := Option.map_eq_some_iff.mp hhead
        cases vs with
        | nil => cases hw
        | cons first vs =>
          obtain rfl := Option.some.inj hw
          exact passes_plain (eq_unitOf hchar hc ▸ hb) vs
      have hangle := hmark (by decide) (by decide) hv
      split at h
      case h_1 hhead | h_2 hhead =>
        obtain ⟨rfl, rfl⟩ := Prod.mk.inj (Option.some.inj h)
        exact ⟨⟨_, rfl⟩, hangle.trans (hbehind (by decide) (by decide) hhead)⟩
      case h_3 =>
        obtain ⟨⟨name, after⟩, hname, h⟩ := Option.map_eq_some_iff.mp h
        obtain ⟨rfl, rfl⟩ := Prod.mk.inj h
        exact ⟨⟨_, rfl⟩, hangle.trans (passes_readName hname)⟩
    case h_5 => cases h

/-- What follows a backslash opens and closes nothing. -/
theorem passes_readBackslash {strict : Bool} {x : Lexeme}
    (h : readBackslash strict us = some (x, rest)) :
    (∀ depth, nest depth x = some depth) ∧ Passes false (unitOf '\\' :: us) rest ∧
      rest.length ≤ us.length := by
  cases us with
  | nil => cases h
  | cons u us =>
    have hescaped {vs : List CodeUnit} (hpass : Passes false us vs) :
        Passes false (unitOf '\\' :: u :: us) vs ∧ vs.length ≤ (u :: us).length :=
      ⟨.escaped hpass, Nat.le_succ_of_le hpass.length_le⟩
    unfold readBackslash at h
    simp only at h
    split at h
    case h_1 | h_2 =>
      obtain ⟨rfl, rfl⟩ := Prod.mk.inj (Option.some.inj h)
      exact ⟨fun _ => rfl, hescaped (.refl us)⟩
    case h_3 =>
      split at h
      · obtain ⟨rfl, rfl⟩ := Prod.mk.inj (Option.some.inj h)
        exact ⟨fun _ => rfl, hescaped (.refl us)⟩
      · split at h
        · obtain ⟨rfl, rfl⟩ := Prod.mk.inj (Option.some.inj h)
          exact ⟨fun _ => rfl, hescaped (passes_takeDigits rfl)⟩
        · split at h
          · obtain ⟨name, hopen, h⟩ := Option.bind_eq_some_iff.mp h
            obtain ⟨⟨found, after⟩, hname, h⟩ := Option.bind_eq_some_iff.mp h
            obtain ⟨rfl, rfl⟩ := Prod.mk.inj (Option.some.inj h)
            exact ⟨fun _ => rfl,
              hescaped ((passes_expect (by decide) hopen).trans (passes_readName hname))⟩
          · obtain ⟨⟨v, after⟩, hescape, h⟩ := Option.map_eq_some_iff.mp h
            obtain ⟨rfl, rfl⟩ := Prod.mk.inj h
            exact ⟨fun _ => rfl, passes_escape hescape⟩

/-- How a lexeme that begins with a unit is taken off. -/
inductive Takes (u : CodeUnit) (us : List CodeUnit) : Lexeme → List CodeUnit → Prop
  /-- It opens and closes nothing. -/
  | flat {x : Lexeme} {rest : List CodeUnit} : (∀ depth, nest depth x = some depth) →
      Passes false (u :: us) rest → rest.length ≤ us.length → Takes u us x rest
  | opening {o : Opening} {rest : List CodeUnit} : u = unitOf '(' → Passes false us rest →
      Takes u us (.opening o) rest
  | closing : u = unitOf ')' → Takes u us .closing us
  | set {s : Charset} {rest : List CodeUnit} : u = unitOf '[' →
      Passes true us (unitOf ']' :: rest) → Takes u us (.unit s) rest
  /-- Outside a class a closing bracket closes nothing. -/
  | lone {s : Charset} : u = unitOf ']' → Takes u us (.unit s) us

/-- A lexeme is not taken off for free. -/
theorem Takes.length_le {u : CodeUnit} {x : Lexeme} (h : Takes u us x rest) :
    rest.length ≤ us.length := by
  cases h with
  | flat _ _ hlen => exact hlen
  | opening _ hpass => exact hpass.length_le
  | closing | lone => exact Nat.le_refl _
  | set _ hpass => exact Nat.le_of_succ_le hpass.length_le

/-- What holds of the empty text, and of any text if it holds of all that a lexeme leaves of it, holds
of every text. -/
theorem takes_induction {P : List CodeUnit → Prop} (nil : P [])
    (cons : ∀ u us, (∀ {x rest}, Takes u us x rest → P rest) → P (u :: us))
    (us : List CodeUnit) : P us := by
  induction hn : us.length using Nat.strong_induction_on generalizing us with
  | _ n ih =>
    subst hn
    cases us with
    | nil => exact nil
    | cons u us => exact cons u us fun h => ih _ (Nat.lt_succ_of_le h.length_le) _ rfl

/-- Every lexeme that is read is taken off in one of these ways. -/
theorem takes_readLexeme {strict : Bool} {u : CodeUnit} {x : Lexeme}
    (h : readLexeme strict u us = some (x, rest)) : Takes u us x rest := by
  have hplain {y : Lexeme} {vs : List CodeUnit} (hu : u ∉ brackets)
      (hy : ∀ depth, nest depth y = some depth) (hpass : Passes false us vs)
      (h : some (y, vs) = some (x, rest)) : Takes u us x rest := by
    obtain ⟨rfl, rfl⟩ := Prod.mk.inj (Option.some.inj h)
    exact .flat hy (.plain hu hpass) hpass.length_le
  unfold readLexeme at h
  split at h
  case h_13 _ _ hopening hclosing _ _ _ _ _ _ hclass hescape =>
    by_cases hbracket : u = unitOf ']'
    · obtain ⟨rfl, rfl⟩ := Prod.mk.inj (Option.some.inj h)
      exact .lone hbracket
    · refine hplain (fun hmem => ?_) (fun _ => rfl) (.refl us) h
      simp only [brackets, List.mem_cons, List.not_mem_nil, or_false] at hmem
      rcases hmem with rfl | rfl | rfl | rfl | rfl
      · exact hescape rfl
      · exact hclass rfl
      · exact hbracket rfl
      · exact hopening rfl
      · exact hclosing rfl
  all_goals rename_i hu
  case h_3 =>
    obtain ⟨⟨o, rfl⟩, hpass⟩ := passes_readOpening h
    exact .opening (eq_unitOf hu (by decide)) hpass
  case h_4 =>
    obtain ⟨rfl, rfl⟩ := Prod.mk.inj (Option.some.inj h)
    exact .closing (eq_unitOf hu (by decide))
  case h_11 =>
    obtain ⟨⟨set, after⟩, hset, h⟩ := Option.map_eq_some_iff.mp h
    obtain ⟨rfl, rfl⟩ := Prod.mk.inj h
    exact .set (eq_unitOf hu (by decide)) (passes_readClass hset)
  case h_12 =>
    obtain ⟨hnest, hpass, hlen⟩ := passes_readBackslash h
    rw [← eq_unitOf hu (by decide)] at hpass
    exact .flat hnest hpass hlen
  case h_1 | h_2 | h_5 | h_6 =>
    exact hplain (by rw [eq_unitOf hu (by decide)]; decide) (fun _ => rfl) (Passes.refl us) h
  case h_7 | h_8 | h_9 =>
    exact hplain (by rw [eq_unitOf hu (by decide)]; decide) (nest_readGreed _ _ us)
      (passes_readGreed _ _ us) h
  case h_10 =>
    have hbrace : u ∉ brackets := by
      rw [eq_unitOf hu (by decide)]
      decide
    split at h
    · rename_i hcounts
      split at h
      · exact hplain hbrace (nest_readGreed _ _ _)
          ((passes_readCounts hcounts).trans (passes_readGreed _ _ _)) h
      · cases h
    · exact hplain hbrace (fun _ => rfl) (Passes.refl us) h

end

/-- Whether a class is open at the end. -/
def openClass (inClass : Bool) : List CodeUnit → Bool
  | [] => inClass
  | u :: us =>
    if isChar '\\' u then
      match us with
      | [] => inClass
      | _ :: rest => openClass inClass rest
    else if inClass then openClass (!isChar ']' u) us
    else openClass (isChar '[' u) us

/-- Whether some group is referred to by its name. -/
def refersByName : List CodeUnit → Bool
  | [] => false
  | u :: us =>
    if isChar '\\' u then
      match us with
      | [] => false
      | v :: rest => isChar 'k' v || refersByName rest
    else refersByName us

section

variable {inClass : Bool} {u : CodeUnit} {us rest : List CodeUnit}

theorem openClass_plain (h : u ∉ brackets) (us : List CodeUnit) :
    openClass inClass (u :: us) = openClass inClass us := by
  rw [openClass.eq_def inClass (u :: us)]
  simp only [isChar_eq_false (c := '\\') h (by decide), isChar_eq_false (c := ']') h (by decide),
    isChar_eq_false (c := '[') h (by decide), Bool.false_eq_true, if_false, Bool.not_false]
  cases inClass <;> rfl

theorem openClass_of_passes (h : Passes inClass us rest) :
    openClass inClass us = openClass inClass rest := by
  induction h with
  | refl us => rfl
  | plain hu _ ih => exact (openClass_plain hu _).trans ih
  | escaped _ ih =>
    rw [openClass.eq_def inClass (unitOf '\\' :: _)]
    exact ih
  | alone hu _ ih =>
    rw [openClass_plain hu] at ih
    rw [openClass.eq_def inClass (unitOf '\\' :: _)]
    exact ih
  | @member u us rest hclass hescape hclose _ ih =>
    subst hclass
    rw [← ih, openClass.eq_def true (u :: us)]
    simp only [isChar, beq_false_of_ne hescape, beq_false_of_ne hclose, Bool.false_eq_true,
      if_false, if_true, Bool.not_false]

/-- A lexeme leaves no class open. -/
theorem openClass_of_takes {x : Lexeme} (h : Takes u us x rest) :
    openClass false (u :: us) = openClass false rest := by
  cases h with
  | flat _ hpass _ => exact openClass_of_passes hpass
  | opening hu hpass =>
    rw [hu, openClass.eq_def false (unitOf '(' :: us)]
    exact openClass_of_passes hpass
  | closing hu =>
    rw [hu, openClass.eq_def false (unitOf ')' :: us)]
    rfl
  | set hu hpass =>
    rw [hu, openClass.eq_def false (unitOf '[' :: us)]
    refine (openClass_of_passes hpass).trans ?_
    rw [openClass.eq_def true (unitOf ']' :: rest)]
    rfl
  | lone hu =>
    rw [hu, openClass.eq_def false (unitOf ']' :: us)]
    rfl

theorem namesGroup_unbracketed (h : u ∉ brackets) (us : List CodeUnit) :
    namesGroup inClass (u :: us) = namesGroup inClass us := by
  rw [namesGroup.eq_def inClass (u :: us)]
  simp only [isChar_eq_false (c := '\\') h (by decide), isChar_eq_false (c := ']') h (by decide),
    isChar_eq_false (c := '[') h (by decide), isChar_eq_false (c := '(') h (by decide),
    Bool.false_eq_true, if_false, Bool.not_false]
  cases inClass <;> rfl

theorem namesGroup_of_passes (h : Passes inClass us rest) :
    namesGroup inClass us = namesGroup inClass rest := by
  induction h with
  | refl us => rfl
  | plain hu _ ih => exact (namesGroup_unbracketed hu _).trans ih
  | escaped _ ih =>
    rw [namesGroup.eq_def inClass (unitOf '\\' :: _)]
    exact ih
  | alone hu _ ih =>
    rw [namesGroup_unbracketed hu] at ih
    rw [namesGroup.eq_def inClass (unitOf '\\' :: _)]
    exact ih
  | @member u us rest hclass hescape hclose _ ih =>
    subst hclass
    rw [← ih, namesGroup.eq_def true (u :: us)]
    simp only [isChar, beq_false_of_ne hescape, beq_false_of_ne hclose, Bool.false_eq_true,
      if_false, if_true, Bool.not_false]

/-- What follows a parenthesis names no group if the whole does not. -/
theorem namesGroup_of_opening (h : namesGroup false (unitOf '(' :: us) = false) :
    namesGroup false us = false := by
  rw [namesGroup.eq_def false (unitOf '(' :: us)] at h
  cases us with
  | nil => rfl
  | cons u us =>
    cases us with
    | nil =>
      rw [namesGroup.eq_def false [u]]
      simp only
      cases isChar '\\' u <;> cases isChar '[' u <;> cases isChar '(' u <;> rfl
    | cons => exact (Bool.or_eq_false_iff.mp h).2

/-- What follows a lexeme names no group if the whole does not. -/
theorem namesGroup_of_takes {x : Lexeme} (h : Takes u us x rest)
    (hname : namesGroup false (u :: us) = false) : namesGroup false rest = false := by
  cases h with
  | flat _ hpass _ => rwa [← namesGroup_of_passes hpass]
  | opening hu hpass =>
    rw [hu] at hname
    rw [← namesGroup_of_passes hpass]
    exact namesGroup_of_opening hname
  | closing hu | lone hu =>
    rw [hu, namesGroup.eq_def false (_ :: us)] at hname
    exact hname
  | set hu hpass =>
    rw [hu, namesGroup.eq_def false (_ :: us)] at hname
    change namesGroup true us = false at hname
    rwa [namesGroup_of_passes hpass, namesGroup.eq_def true (_ :: rest)] at hname

theorem refersByName_of_ne (h : u ≠ unitOf '\\') (us : List CodeUnit) :
    refersByName (u :: us) = refersByName us := by
  rw [refersByName.eq_def (u :: us)]
  simp only [isChar, beq_false_of_ne h, Bool.false_eq_true, if_false]

theorem ne_backslash (h : u ∉ brackets) : u ≠ unitOf '\\' := by
  rintro rfl
  exact h (by decide)

/-- What follows an escape refers to no group by name if the whole does not. -/
theorem refersByName_of_escape (h : refersByName (unitOf '\\' :: u :: us) = false) :
    isChar 'k' u = false ∧ refersByName us = false :=
  Bool.or_eq_false_iff.mp h

theorem refersByName_of_passes (h : Passes inClass us rest) (href : refersByName us = false) :
    refersByName rest = false := by
  induction h with
  | refl us => exact href
  | plain hu _ ih =>
    rw [refersByName_of_ne (ne_backslash hu)] at href
    exact ih href
  | escaped _ ih => exact ih (refersByName_of_escape href).2
  | alone hu _ ih =>
    refine ih ?_
    rw [refersByName_of_ne (ne_backslash hu)]
    exact (refersByName_of_escape href).2
  | member _ hescape _ _ ih =>
    rw [refersByName_of_ne hescape] at href
    exact ih href

/-- What follows a lexeme refers to no group by name if the whole does not. -/
theorem refersByName_of_takes {x : Lexeme} (h : Takes u us x rest)
    (href : refersByName (u :: us) = false) : refersByName rest = false := by
  cases h with
  | flat _ hpass _ => exact refersByName_of_passes hpass href
  | opening hu hpass =>
    rw [hu, refersByName_of_ne (by decide)] at href
    exact refersByName_of_passes hpass href
  | closing hu | lone hu =>
    rwa [hu, refersByName_of_ne (by decide)] at href
  | set hu hpass =>
    rw [hu, refersByName_of_ne (by decide)] at href
    have hrest := refersByName_of_passes hpass href
    rwa [refersByName_of_ne (by decide)] at hrest

end

end Regex

end CaseFiles
