import CaseFiles.Text.Units
import Mathlib.Data.List.Induction

/-!
# Texts in order

Texts are in order if their code units are. Sorting texts of which no two are the same puts them in
strictly increasing order, and there is one such order only. Texts that begin alike keep their order
if they begin alike in another way. Main statements: `increasing_mergeSort`,
`Increasing.eq_of_mem_iff`, `Increasing.map_append`.
-/

namespace CaseFiles

namespace Text

/-- Each text is strictly smaller than those after it, in the order of their code units. -/
def Increasing (ts : List Text) : Prop := ts.Pairwise fun a b => a.units < b.units

instance (ts : List Text) : Decidable (Increasing ts) := by
  unfold Increasing
  infer_instance

variable {ts us : List Text}

theorem unitsLe_iff {a b : Text} : unitsLe a b = true ↔ a.units ≤ b.units := decide_eq_true_iff

/-- Sorting distinct texts puts them in strictly increasing order. -/
theorem increasing_mergeSort (h : ts.Nodup) : Increasing (ts.mergeSort unitsLe) := by
  have hsorted : (ts.mergeSort unitsLe).Pairwise fun a b => unitsLe a b = true := by
    refine List.pairwise_mergeSort (fun a b c hab hbc => ?_) (fun a b => ?_) ts
    · rw [unitsLe_iff] at hab hbc ⊢
      exact List.le_trans hab hbc
    · rw [Bool.or_eq_true, unitsLe_iff, unitsLe_iff]
      exact List.le_total a.units b.units
  have hdistinct : (ts.mergeSort unitsLe).Nodup := (List.mergeSort_perm _ _).nodup_iff.mpr h
  refine List.Pairwise.imp₂ (fun a b hle hne => ?_) hsorted hdistinct
  exact Std.lt_of_le_of_ne (unitsLe_iff.mp hle) fun heq => hne (units_injective heq)

theorem Increasing.nodup (h : Increasing ts) : ts.Nodup :=
  List.Pairwise.imp (fun hlt heq => absurd (heq ▸ hlt) (List.lt_irrefl _)) h

/-- There is one increasing order only. -/
theorem Increasing.eq_of_mem_iff (hts : Increasing ts) (hus : Increasing us)
    (h : ∀ a, a ∈ ts ↔ a ∈ us) : ts = us := by
  refine List.Perm.eq_of_pairwise (fun a b _ _ hab hba => ?_) hts hus
    ((List.perm_ext_iff_of_nodup hts.nodup hus.nodup).mpr h)
  exact absurd (List.lt_trans hab hba) (List.lt_irrefl _)

/-- A common beginning does not matter to the order. -/
theorem append_lt_append_iff {a b c : List CodeUnit} : a ++ b < a ++ c ↔ b < c := by
  constructor
  · intro h
    by_contra hlt
    exact List.not_lt.mpr (List.append_left_le (List.not_lt.mp hlt)) h
  · exact List.append_left_lt

/-- Texts stay in order if their common beginning is replaced by another one. -/
theorem Increasing.map_append {φ : Text → Text} (h : Increasing ts) (lead front : Text)
    (hφ : ∀ a ∈ ts, ∃ b, a = lead ++ b ∧ φ a = front ++ b) : Increasing (ts.map φ) := by
  refine List.pairwise_map.mpr (List.Pairwise.imp_of_mem (fun {a a'} ha ha' hlt => ?_) h)
  obtain ⟨b, rfl, hb⟩ := hφ a ha
  obtain ⟨b', rfl, hb'⟩ := hφ a' ha'
  rw [units_append, units_append, append_lt_append_iff] at hlt
  rw [hb, hb', units_append, units_append, append_lt_append_iff]
  exact hlt

/-- At most one text is in order, whatever becomes of it. -/
theorem Increasing.map_of_forall_eq {φ : Text → Text} {a : Text} (h : Increasing ts)
    (ha : ∀ b ∈ ts, b = a) : Increasing (ts.map φ) := by
  refine List.pairwise_map.mpr (List.Pairwise.imp_of_mem (fun {b b'} hb hb' hlt => ?_) h)
  rw [ha b hb, ha b' hb'] at hlt
  exact absurd hlt (List.lt_irrefl _)

end Text

end CaseFiles
