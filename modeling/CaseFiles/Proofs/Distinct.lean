/-!
# Values without their repetitions

Keys, names and matches are listed once each, where they come first. Main statements: no value is
left twice (`nodup_eraseDups`), the first value that satisfies a test is still the first
(`find?_eraseDups`), and a list behind another one adds the values that are new
(`eraseDups_append_eq_filter`).
-/

namespace CaseFiles

variable {α : Type} [BEq α] [LawfulBEq α]

/-- No value is left twice. -/
theorem nodup_eraseDups (xs : List α) : xs.eraseDups.Nodup := by
  match xs with
  | [] => exact List.nodup_nil
  | x :: xs =>
    rw [List.eraseDups_cons, List.nodup_cons, List.mem_eraseDups]
    refine ⟨?_, nodup_eraseDups (xs.filter fun y => !y == x)⟩
    intro h
    simpa using (List.mem_filter.mp h).2
termination_by xs.length
decreasing_by exact Nat.lt_succ_of_le (List.length_filter_le _ xs)

/-- The first of some values that satisfies a test is not lost with their repetitions. -/
theorem find?_eraseDups (test : α → Bool) (xs : List α) :
    xs.eraseDups.find? test = xs.find? test := by
  match xs with
  | [] => rfl
  | x :: xs =>
    rw [List.eraseDups_cons]
    cases hx : test x with
    | true => rw [List.find?_cons_of_pos hx, List.find?_cons_of_pos hx]
    | false =>
      have hne : test x ≠ true := by simp [hx]
      rw [List.find?_cons_of_neg hne, List.find?_cons_of_neg hne,
        find?_eraseDups test (xs.filter fun y => !y == x), List.find?_filter]
      congr 1
      funext y
      by_cases hy : y = x
      · simp [hy, hx]
      · simp [hy]
termination_by xs.length
decreasing_by exact Nat.lt_succ_of_le (List.length_filter_le _ xs)

/-- Values may be dropped after their repetitions as well as before. -/
theorem eraseDups_filter (test : α → Bool) (xs : List α) :
    (xs.filter test).eraseDups = xs.eraseDups.filter test := by
  match xs with
  | [] => rfl
  | x :: xs =>
    have hrest := eraseDups_filter test (xs.filter fun y => !y == x)
    have hswap : (xs.filter fun y => !y == x).filter test =
        (xs.filter test).filter fun y => !y == x := by
      rw [List.filter_filter, List.filter_filter]
      exact List.filter_congr fun y _ => Bool.and_comm _ _
    rw [hswap] at hrest
    rw [List.eraseDups_cons]
    cases hx : test x with
    | true =>
      rw [List.filter_cons_of_pos hx, List.filter_cons_of_pos hx, List.eraseDups_cons, hrest]
    | false =>
      have hne : test x ≠ true := by simp [hx]
      have hkept : ((xs.filter test).filter fun y => !y == x) = xs.filter test := by
        apply List.filter_eq_self.mpr
        intro y hy
        have hyx : y ≠ x := fun he => hne (he ▸ (List.mem_filter.mp hy).2)
        simpa using hyx
      rw [hkept] at hrest
      rw [List.filter_cons_of_neg hne, List.filter_cons_of_neg hne, hrest]
termination_by xs.length
decreasing_by exact Nat.lt_succ_of_le (List.length_filter_le _ xs)

/-- A list behind another one adds those of its values that are not in that one. -/
theorem eraseDups_append_eq_filter (xs ys : List α) :
    (xs ++ ys).eraseDups = xs.eraseDups ++ ys.eraseDups.filter (· ∉ xs.eraseDups) := by
  rw [List.eraseDups_append, List.removeAll, eraseDups_filter]
  refine congrArg _ (List.filter_congr fun y _ => ?_)
  simp [List.mem_eraseDups]

/-- The first of the elements that are new in a list comes last among those that were there. -/
theorem eraseDups_removeAll_cons (a : α) (old new : List α) :
    old ++ ((a :: new).removeAll old).eraseDups =
      (if a ∈ old then old else old ++ [a]) ++
        (new.removeAll (if a ∈ old then old else old ++ [a])).eraseDups := by
  split
  next h => simp [List.removeAll, h]
  next h =>
    have hrest : (new.removeAll old).filter (fun b => !b == a) = new.removeAll (old ++ [a]) := by
      rw [List.removeAll, List.removeAll, List.filter_filter]
      exact List.filter_congr fun b _ => by by_cases b = a <;> simp [*]
    have hcons : (a :: new).removeAll old = a :: new.removeAll old := by
      simp [List.removeAll, h]
    rw [hcons, List.eraseDups_cons, hrest]
    simp

/-- Values are repeated as before if they are changed without making two of them the same. -/
theorem eraseDups_map {β : Type} [BEq β] [LawfulBEq β] {g : α → β} {xs : List α}
    (h : ∀ a ∈ xs, ∀ b ∈ xs, g a = g b → a = b) :
    (xs.map g).eraseDups = xs.eraseDups.map g := by
  match xs with
  | [] => rfl
  | x :: xs =>
    obtain ⟨hx, -⟩ := List.forall_mem_cons.mp h
    have hfilter : (xs.map g).filter (fun y => !y == g x) =
        (xs.filter fun y => !y == x).map g := by
      rw [List.filter_map]
      refine congrArg (List.map g) (List.filter_congr fun y hy => ?_)
      have hsame : (g y == g x) = (y == x) := by
        rw [Bool.eq_iff_iff, beq_iff_eq, beq_iff_eq]
        exact ⟨fun he => (hx y (List.mem_cons_of_mem x hy) he.symm).symm, congrArg g⟩
      exact congrArg (!·) hsame
    have hmem {y : α} (hy : y ∈ xs.filter fun y => !y == x) : y ∈ x :: xs :=
      List.mem_cons_of_mem x (List.mem_filter.mp hy).1
    rw [List.map_cons, List.eraseDups_cons, List.eraseDups_cons, List.map_cons, hfilter,
      eraseDups_map fun a ha b hb => h a (hmem ha) b (hmem hb)]
termination_by xs.length
decreasing_by exact Nat.lt_succ_of_le (List.length_filter_le _ xs)

end CaseFiles
