/-!
# Association lists

Entries at their locations, values by their keys and what groups have kept are all lists of pairs
in which the first pair of a key counts. Main statement: where no key is taken twice, what is looked
up is what is listed (`lookup_eq_some_iff`).
-/

namespace CaseFiles

variable {α β γ : Type} [BEq α] [LawfulBEq α]

theorem lookup_eq_some_iff {a : α} {b : β} {xs : List (α × β)} (h : (xs.map Prod.fst).Nodup) :
    xs.lookup a = some b ↔ (a, b) ∈ xs := by
  induction xs with
  | nil => simp
  | cons x xs ih =>
    obtain ⟨c, d⟩ := x
    rw [List.map_cons, List.nodup_cons] at h
    rw [List.lookup_cons]
    by_cases hc : a = c
    · subst hc
      simp only [beq_self_eq_true, Option.some.injEq, List.mem_cons, Prod.mk.injEq, true_and]
      refine ⟨fun e => Or.inl e.symm, ?_⟩
      rintro (e | hm)
      · exact e.symm
      · exact absurd (List.mem_map_of_mem (f := Prod.fst) hm) h.1
    · have hf : (a == c) = false := by simpa using hc
      simp only [hf, ih h.2, List.mem_cons, Prod.mk.injEq, hc, false_and, false_or]

/-- A key is found after pairs of other keys are dropped. -/
theorem lookup_filter {P : α → Bool} {a : α} (ha : P a = true) (xs : List (α × β)) :
    (xs.filter fun x => P x.1).lookup a = xs.lookup a := by
  induction xs with
  | nil => rfl
  | cons x xs ih =>
    obtain ⟨c, d⟩ := x
    cases hc : P c with
    | true => rw [List.filter_cons_of_pos (by simp [hc]), List.lookup_cons, List.lookup_cons, ih]
    | false =>
      have hac : (a == c) = false := beq_eq_false_iff_ne.mpr fun he => by simp [← he, ha] at hc
      rw [List.filter_cons_of_neg (by simp [hc]), List.lookup_cons, hac, ih]

/-- Under its new name a key is found, unless another key has got that name. -/
theorem lookup_map_fst [BEq γ] [LawfulBEq γ] {g : α → γ} {a : α} {xs : List (α × β)}
    (h : ∀ x ∈ xs, g x.1 = g a → x.1 = a) :
    (xs.map fun x => (g x.1, x.2)).lookup (g a) = xs.lookup a := by
  induction xs with
  | nil => rfl
  | cons x xs ih =>
    obtain ⟨c, d⟩ := x
    obtain ⟨hc, hxs⟩ := List.forall_mem_cons.mp h
    rw [List.map_cons, List.lookup_cons, List.lookup_cons, ih hxs]
    by_cases hac : a = c
    · subst hac
      rw [beq_self_eq_true, beq_self_eq_true]
    · have hold : (a == c) = false := beq_eq_false_iff_ne.mpr hac
      have hnew : (g a == g c) = false := beq_eq_false_iff_ne.mpr fun he => hac (hc he.symm).symm
      rw [hold, hnew]

omit [LawfulBEq α] in
/-- What is found after all values are changed is the changed value. -/
theorem lookup_map_value (g : β → γ) (xs : List (α × β)) (a : α) :
    (xs.map fun x => (x.1, g x.2)).lookup a = (xs.lookup a).map g := by
  induction xs with
  | nil => rfl
  | cons x xs ih =>
    rw [List.map_cons, List.lookup_cons, List.lookup_cons, ih]
    cases a == x.1 <;> rfl

end CaseFiles
