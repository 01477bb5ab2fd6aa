import CaseFiles.Proofs.Regex.Fragment

/-!
# Where texts can be cut

A row of units that is cut out of the units of a text is again the units of a text if no pair is
cut in half: after a text, and before what does not begin with the trailing half of a pair.
-/

namespace CaseFiles

namespace Text

/-- The units do not begin with the trailing half of a pair. -/
def NotTrail (us : List CodeUnit) : Prop := ∀ u ∈ us.head?, isTrail u = false

/-- The units of a character do not begin so. -/
theorem notTrail_charUnits (c : Char) (us : List CodeUnit) : NotTrail (charUnits c ++ us) := by
  by_cases h : c.toNat < 0x10000
  · obtain ⟨hu, -, -, ht⟩ := charUnits_basic h
    rw [hu]
    rintro u ⟨⟩
    exact ht
  · obtain ⟨u, v, hu, hl, -, -⟩ := charUnits_pair h
    rw [hu]
    rintro w ⟨⟩
    simp only [isLead, isTrail, Bool.and_eq_true, Bool.and_eq_false_iff, decide_eq_true_eq,
      decide_eq_false_iff_not, UInt16.le_iff_toNat_le, UInt16.toNat_ofNat] at hl ⊢
    omega

theorem notTrail_units (t : Text) : NotTrail t.units := by
  cases t with
  | nil => exact fun _ h => nomatch h
  | cons c t => exact notTrail_charUnits c (units t)

/-- A text whose units begin with those of a character begins with that character. -/
theorem eq_cons_of_units_eq {t : Text} {c : Char} {us : List CodeUnit}
    (h : t.units = charUnits c ++ us) : ∃ t' : Text, t = c :: t' ∧ t'.units = us := by
  have hread := ofUnits?_units t
  rw [h, ofUnits?_charUnits_append, Option.map_eq_some_iff] at hread
  obtain ⟨t', -, rfl⟩ := hread
  exact ⟨t', rfl, List.append_cancel_left h⟩

/-- What follows a text in a text is a text. -/
theorem exists_text_of_append {t a : Text} {us : List CodeUnit} (h : t.units = a.units ++ us) :
    ∃ b : Text, t = a ++ b ∧ b.units = us := by
  induction a generalizing t with
  | nil => exact ⟨t, rfl, h⟩
  | cons c a ih =>
    rw [units_cons, List.append_assoc] at h
    obtain ⟨t', rfl, ht'⟩ := eq_cons_of_units_eq h
    obtain ⟨b, rfl, hb⟩ := ih ht'
    exact ⟨b, rfl, hb⟩

/-- What begins a text is a text if no pair is cut in half after it. -/
theorem exists_text_of_notTrail {t : Text} {us rest : List CodeUnit}
    (h : t.units = us ++ rest) (hrest : NotTrail rest) : ∃ a : Text, a.units = us := by
  induction t generalizing us with
  | nil => exact ⟨[], (List.append_eq_nil_iff.mp h.symm).1.symm⟩
  | cons c t ih =>
    cases us with
    | nil => exact ⟨[], rfl⟩
    | cons u us =>
      by_cases hc : c.toNat < 0x10000
      · obtain ⟨hu, -⟩ := charUnits_basic hc
        rw [units_cons, hu, List.singleton_append, List.cons_append, List.cons.injEq] at h
        obtain ⟨a, ha⟩ := ih h.2
        exact ⟨c :: a, by rw [units_cons, hu, ha, h.1, List.singleton_append]⟩
      · obtain ⟨v, w, hu, -, ht, -⟩ := charUnits_pair hc
        rw [units_cons, hu, List.cons_append, List.cons_append, List.cons_append,
          List.cons.injEq] at h
        cases us with
        | nil =>
          have hhead : rest.head? = some w := by
            rw [← List.nil_append rest, ← h.2]
            rfl
          rw [hrest w hhead] at ht
          exact nomatch ht
        | cons x us =>
          rw [List.nil_append, List.cons_append, List.cons.injEq] at h
          obtain ⟨a, ha⟩ := ih h.2.2
          exact ⟨c :: a, by rw [units_cons, hu, ha, h.1, h.2.1]; rfl⟩

/-- A character of the basic plane is in a text exactly if its unit is among those of the text. -/
theorem mem_units_iff {c : Char} (hc : c.toNat < 0x10000) {t : Text} :
    Regex.unitOf c ∈ t.units ↔ c ∈ t := by
  obtain ⟨-, hc', hl, ht⟩ := charUnits_basic hc
  have hone (d : Char) : Regex.unitOf c ∈ charUnits d ↔ c = d := by
    by_cases hd : d.toNat < 0x10000
    · obtain ⟨hu, hd', -⟩ := charUnits_basic hd
      rw [hu, List.mem_singleton]
      refine ⟨fun h => Char.toNat_inj.mp ?_, fun h => h ▸ rfl⟩
      rw [← hc', ← hd', ← h]
      rfl
    · obtain ⟨u, v, hu, hlead, htrail, -⟩ := charUnits_pair hd
      rw [hu]
      refine ⟨fun h => ?_, fun h => absurd (h ▸ hc) hd⟩
      rcases List.mem_cons.mp h with h | h
      · exact absurd (h ▸ hlead) (by rw [Regex.unitOf, hl]; decide)
      · exact absurd (List.mem_singleton.mp h ▸ htrail) (by rw [Regex.unitOf, ht]; decide)
  rw [units, List.mem_flatMap]
  simp only [hone, exists_eq_right']

end Text

end CaseFiles
