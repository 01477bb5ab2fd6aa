import CaseFiles.Glob.Pattern
import CaseFiles.Proofs.Path.Normalizing

/-!
# Globs of plain parts

A written glob whose parts are not empty and neither stay where they are nor lead up is in normal
form, but for neighbouring globstars. Main statement: `patterns_of_plain`.
-/

namespace CaseFiles

namespace Glob

open CaseFiles.Path (Plain splitSlash)

private theorem dropLast_append_getLast? (ps : List Text) :
    ps.dropLast ++ ps.getLast?.toList = ps := by
  induction ps using List.reverseRecOn with
  | nil => rfl
  | append_singleton ps p _ => simp

theorem mem_of_mem_collapse {parts : List Text} {p : Text} (h : p ∈ collapse parts) :
    p ∈ parts := by
  induction parts with
  | nil => exact h
  | cons s rest ih =>
    cases rest with
    | nil => exact h
    | cons u rest =>
      rw [collapse] at h
      split at h
      · exact List.mem_cons_of_mem s (ih h)
      · rcases List.mem_cons.mp h with rfl | h
        · exact List.mem_cons_self
        · exact List.mem_cons_of_mem s (ih h)

/-- No part is lost. -/
theorem mem_collapse_of_mem {parts : List Text} {p : Text} (h : p ∈ parts) :
    p ∈ collapse parts := by
  induction parts with
  | nil => exact h
  | cons s rest ih =>
    cases rest with
    | nil => exact h
    | cons u rest =>
      rw [collapse]
      split
      · rename_i hstars
        apply ih
        rcases List.mem_cons.mp h with rfl | h
        · rw [hstars.1, ← hstars.2]
          exact List.mem_cons_self
        · exact h
      · rcases List.mem_cons.mp h with rfl | h
        · exact List.mem_cons_self
        · exact List.mem_cons_of_mem s (ih h)

/-- The first part stays the first one. -/
theorem collapse_cons (s : Text) (rest : List Text) :
    ∃ more, collapse (s :: rest) = s :: more := by
  induction rest generalizing s with
  | nil => exact ⟨[], rfl⟩
  | cons u rest ih =>
    rw [collapse]
    split
    · rename_i h
      rw [h.1, ← h.2]
      exact ih u
    · exact ⟨_, rfl⟩

theorem collapse_collapse (parts : List Text) : collapse (collapse parts) = collapse parts := by
  induction parts with
  | nil => rfl
  | cons s rest ih =>
    cases rest with
    | nil => rfl
    | cons u rest =>
      rw [collapse]
      split
      · exact ih
      · rename_i h
        obtain ⟨more, hmore⟩ := collapse_cons u rest
        rw [hmore] at ih ⊢
        rw [collapse, if_neg h, ih]

/-- Where nothing leads up, no globstar stands for two globs. -/
theorem fork_of_not_mem {parts : List Text} (h : Path.dotDot ∉ parts) :
    fork parts = (parts, []) := by
  induction parts with
  | nil => rfl
  | cons s rest ih =>
    have hrest := ih (List.not_mem_of_not_mem_cons h)
    unfold fork
    rw [hrest]
    cases rest with
    | nil => rfl
    | cons u rest =>
      have hu : u ≠ Path.dotDot := by
        rintro rfl
        exact h (List.mem_cons_of_mem s List.mem_cons_self)
      cases rest with
      | nil => rfl
      | cons p rest =>
        cases rest with
        | nil => rfl
        | cons q rest =>
          simp only
          rw [if_neg fun hc => hu hc.2.1]
          rfl

/-- Plain parts do not stay where they are. -/
theorem squeeze_of_plain {parts : List Text} (h : ∀ p ∈ parts, Plain p) : squeeze parts = parts := by
  cases parts with
  | nil => rfl
  | cons p ps =>
    have hfilter : (ps.dropLast.filter fun s => s != Path.dot && !s.isEmpty) = ps.dropLast := by
      apply List.filter_eq_self.mpr
      intro s hs
      obtain ⟨hne, hdot, -⟩ := h s (List.mem_cons_of_mem p (List.dropLast_subset _ hs))
      simp [hne, hdot]
    have hp : p ≠ Path.dot := (h p List.mem_cons_self).2.1
    unfold squeeze
    simp only [List.cons_append, hfilter, dropLast_append_getLast?]
    split
    · rename_i heq
      rw [if_neg fun hc => hp ((List.cons.inj heq).1 ▸ hc.1)]
    · rfl

/-- Where nothing leads up, nothing is cancelled. -/
theorem cancel_of_not_mem {parts : List Text} (h : Path.dotDot ∉ parts) (stack : List Text) :
    cancel stack parts = stack.reverse ++ parts := by
  induction parts generalizing stack with
  | nil =>
    rw [List.append_nil]
    cases stack <;> rfl
  | cons s rest ih =>
    have hs : s ≠ Path.dotDot := by
      rintro rfl
      exact h List.mem_cons_self
    have hrest := ih (List.not_mem_of_not_mem_cons h)
    cases stack with
    | nil => exact hrest [s]
    | cons top below =>
      rw [cancel, if_neg fun hc => hs hc.1, hrest, List.reverse_cons, List.append_assoc]
      rfl

/-- One round makes neighbouring globstars one, and a second one changes nothing. -/
theorem simplify_of_plain {parts : List Text} (hne : parts ≠ []) (h : ∀ p ∈ parts, Plain p)
    (fuel : Nat) : simplify (fuel + 2) parts = [collapse parts] := by
  have hround {n : Nat} {parts : List Text} (hne : parts ≠ []) (h : ∀ p ∈ parts, Plain p) :
      simplify (n + 1) parts =
        if collapse parts = parts then [collapse parts] else simplify n (collapse parts) := by
    have hplain : ∀ p ∈ collapse parts, Plain p := fun p hp => h p (mem_of_mem_collapse hp)
    have hnonempty : (collapse parts).isEmpty = false := by
      cases parts with
      | nil => exact absurd rfl hne
      | cons s rest =>
        obtain ⟨more, hmore⟩ := collapse_cons s rest
        rw [hmore]
        rfl
    have hup : Path.dotDot ∉ collapse parts := fun h => (hplain _ h).2.2 rfl
    rw [simplify, fork_of_not_mem hup]
    simp only [squeeze_of_plain hplain, cancel_of_not_mem hup, List.reverse_nil, List.nil_append,
      hnonempty, Bool.false_eq_true, if_false, List.flatMap_nil, List.append_nil]
  have hcollapsed : collapse parts ≠ [] := by
    cases parts with
    | nil => exact absurd rfl hne
    | cons s rest =>
      obtain ⟨more, hmore⟩ := collapse_cons s rest
      rw [hmore]
      exact List.cons_ne_nil s more
  rw [hround hne h]
  split
  · rfl
  · rw [hround hcollapsed fun p hp => h p (mem_of_mem_collapse hp), collapse_collapse, if_pos rfl]

/-- A written glob of plain parts is cut at all its slashes. -/
theorem cut_of_plain {g : Text} (h : ∀ p ∈ splitSlash g, Plain p) : cut g = splitSlash g := by
  unfold cut
  cases hs : splitSlash g with
  | nil => rfl
  | cons p ps =>
    cases ps with
    | nil => rfl
    | cons q ps =>
      have hfilter : (q :: ps).dropLast.filter (!·.isEmpty) = (q :: ps).dropLast := by
        apply List.filter_eq_self.mpr
        intro s hmem
        have hplain := h s (hs ▸ List.mem_cons_of_mem p (List.dropLast_subset _ hmem))
        simp [hplain.1]
      simp only [hfilter, dropLast_append_getLast?]

/-- A written glob of plain parts stands for the one glob with these parts as segments, neighbouring
globstars being one. -/
theorem patterns_of_plain {g : Text} (h : ∀ p ∈ splitSlash g, Plain p) :
    patterns g = [⟨false, (collapse (splitSlash g)).map .ofText⟩] := by
  have hg : g.isEmpty = false := by
    cases g with
    | nil => exact absurd rfl (h [] List.mem_cons_self).1
    | cons c g => rfl
  obtain ⟨fuel, hfuel⟩ : ∃ fuel, 2 * (splitSlash g).length + 1 = fuel + 2 := by
    have hpos := List.length_pos_iff.mpr (Path.splitSlash_ne_nil g)
    exact ⟨2 * (splitSlash g).length - 1, by omega⟩
  unfold patterns
  rw [hg, if_neg (by decide)]
  simp only [cut_of_plain h, hfuel, simplify_of_plain (Path.splitSlash_ne_nil g) h]
  cases hs : splitSlash g with
  | nil => exact absurd hs (Path.splitSlash_ne_nil g)
  | cons p ps =>
    have hp : p ≠ [] := (h p (hs ▸ List.mem_cons_self)).1
    obtain ⟨more, hmore⟩ := collapse_cons p ps
    rw [hmore]
    cases p with
    | nil => exact absurd rfl hp
    | cons c p => rfl

end Glob

end CaseFiles
