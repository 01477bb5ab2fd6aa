/-!
# Texts and their code units

A text is a list of characters. Orders and patterns look at a text as 16-bit code units, where a
character above `0xFFFF` is a pair of two surrogates. Main statement: reading the units of a text
gives the text back (`ofUnits?_units`), so distinct texts have distinct units.
-/

namespace CaseFiles

/-- A text, character by character. -/
abbrev Text := List Char

/-- A 16-bit code unit. -/
abbrev CodeUnit := UInt16

namespace Text

/-- The leading unit of a surrogate pair. -/
def isLead (u : CodeUnit) : Bool := 0xD800 ≤ u && u ≤ 0xDBFF

/-- The trailing unit of a surrogate pair. -/
def isTrail (u : CodeUnit) : Bool := 0xDC00 ≤ u && u ≤ 0xDFFF

/-- The one or two units of a character. -/
def charUnits (c : Char) : List CodeUnit :=
  if c.toNat < 0x10000 then [UInt16.ofNat c.toNat]
  else
    [UInt16.ofNat (0xD800 + (c.toNat - 0x10000) / 0x400),
      UInt16.ofNat (0xDC00 + (c.toNat - 0x10000) % 0x400)]

/-- The code units of a text. -/
def units (t : Text) : List CodeUnit := t.flatMap charUnits

/-- The character that a surrogate pair stands for. -/
def pairChar (lead trail : CodeUnit) : Char :=
  Char.ofNat (0x10000 + (lead.toNat - 0xD800) * 0x400 + (trail.toNat - 0xDC00))

/-- The text with the given units, unless a surrogate stands alone in them. -/
def ofUnits? : List CodeUnit → Option Text
  | [] => some []
  | u :: v :: us =>
    if isLead u then
      if isTrail v then (ofUnits? us).map (pairChar u v :: ·) else none
    else if isTrail u then none
    else (ofUnits? (v :: us)).map (Char.ofNat u.toNat :: ·)
  | [u] => if isLead u || isTrail u then none else some [Char.ofNat u.toNat]

/-- Texts in the order of their code units. -/
def unitsLe (a b : Text) : Bool := decide (a.units ≤ b.units)

@[simp] theorem units_nil : units [] = [] := rfl

@[simp] theorem units_cons (c : Char) (t : Text) : units (c :: t) = charUnits c ++ units t := rfl

@[simp] theorem units_append (a b : Text) : units (a ++ b) = units a ++ units b := by
  simp [units]

/-- A unit outside the surrogates is a character of its own. -/
theorem ofUnits?_cons {u : CodeUnit} (us : List CodeUnit) (hl : isLead u = false)
    (ht : isTrail u = false) :
    ofUnits? (u :: us) = (ofUnits? us).map (Char.ofNat u.toNat :: ·) := by
  cases us <;> simp [ofUnits?, hl, ht]

/-- A surrogate pair is one character. -/
theorem ofUnits?_pair {u v : CodeUnit} (us : List CodeUnit) (hl : isLead u = true)
    (ht : isTrail v = true) :
    ofUnits? (u :: v :: us) = (ofUnits? us).map (pairChar u v :: ·) := by
  simp [ofUnits?, hl, ht]

private theorem toNat_ofNat16 {n : Nat} (h : n < 0x10000) : (UInt16.ofNat n).toNat = n := by
  rw [UInt16.toNat_ofNat']
  exact Nat.mod_eq_of_lt h

/-- A character of the basic plane is one unit, which is no surrogate. -/
theorem charUnits_basic {c : Char} (h : c.toNat < 0x10000) :
    charUnits c = [UInt16.ofNat c.toNat] ∧ (UInt16.ofNat c.toNat).toNat = c.toNat ∧
      isLead (UInt16.ofNat c.toNat) = false ∧ isTrail (UInt16.ofNat c.toNat) = false := by
  have hv := c.valid
  have hc : c.val.toNat = c.toNat := rfl
  simp only [UInt32.isValidChar, Nat.isValidChar, hc] at hv
  have hn := toNat_ofNat16 h
  refine ⟨if_pos h, hn, ?_, ?_⟩
  · simp only [isLead, Bool.and_eq_false_iff, decide_eq_false_iff_not, UInt16.le_iff_toNat_le, hn]
    simp only [UInt16.toNat_ofNat]
    omega
  · simp only [isTrail, Bool.and_eq_false_iff, decide_eq_false_iff_not, UInt16.le_iff_toNat_le, hn]
    simp only [UInt16.toNat_ofNat]
    omega

/-- Any other character is a pair of surrogates. -/
theorem charUnits_pair {c : Char} (h : ¬ c.toNat < 0x10000) :
    ∃ u v, charUnits c = [u, v] ∧ isLead u = true ∧ isTrail v = true ∧ pairChar u v = c := by
  have hv := c.valid
  have hc : c.val.toNat = c.toNat := rfl
  simp only [UInt32.isValidChar, Nat.isValidChar, hc] at hv
  have hl : (UInt16.ofNat (0xD800 + (c.toNat - 0x10000) / 0x400)).toNat =
      0xD800 + (c.toNat - 0x10000) / 0x400 := toNat_ofNat16 (by omega)
  have ht : (UInt16.ofNat (0xDC00 + (c.toNat - 0x10000) % 0x400)).toNat =
      0xDC00 + (c.toNat - 0x10000) % 0x400 := toNat_ofNat16 (by omega)
  refine ⟨_, _, if_neg h, ?_, ?_, ?_⟩
  · simp only [isLead, Bool.and_eq_true, decide_eq_true_eq, UInt16.le_iff_toNat_le, hl]
    simp only [UInt16.toNat_ofNat]
    omega
  · simp only [isTrail, Bool.and_eq_true, decide_eq_true_eq, UInt16.le_iff_toNat_le, ht]
    simp only [UInt16.toNat_ofNat]
    omega
  · have hp : 0x10000 + (0xD800 + (c.toNat - 0x10000) / 0x400 - 0xD800) * 0x400 +
        (0xDC00 + (c.toNat - 0x10000) % 0x400 - 0xDC00) = c.toNat := by omega
    simp only [pairChar, hl, ht, hp, Char.ofNat_toNat]

/-- The units of one character are read back as that character. -/
theorem ofUnits?_charUnits_append (c : Char) (us : List CodeUnit) :
    ofUnits? (charUnits c ++ us) = (ofUnits? us).map (c :: ·) := by
  by_cases h : c.toNat < 0x10000
  · obtain ⟨hu, hn, hl, ht⟩ := charUnits_basic h
    rw [hu, List.singleton_append, ofUnits?_cons us hl ht, hn, Char.ofNat_toNat]
  · obtain ⟨u, v, hu, hl, ht, hp⟩ := charUnits_pair h
    rw [hu, List.cons_append, List.singleton_append, ofUnits?_pair us hl ht, hp]

/-- Reading the units of a text gives the text back. -/
theorem ofUnits?_units (t : Text) : ofUnits? t.units = some t := by
  induction t with
  | nil => rfl
  | cons c t ih => rw [units_cons, ofUnits?_charUnits_append, ih, Option.map_some]

/-- Distinct texts have distinct units. -/
theorem units_injective {a b : Text} (h : a.units = b.units) : a = b := by
  have ha := ofUnits?_units a
  rw [h, ofUnits?_units] at ha
  exact (Option.some.inj ha).symm

end Text

end CaseFiles
