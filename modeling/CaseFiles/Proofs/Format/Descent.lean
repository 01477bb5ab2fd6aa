import CaseFiles.Proofs.Format.Direct
import CaseFiles.Proofs.Glob.Parts

/-!
# Formats that do not lead up

The glob of a format without `..` has one normal form. It starts at the root only if the format
does, and it does not lead up either. Main statement: `exists_patterns_of_downward`.
-/

namespace CaseFiles

open CaseFiles.Path (splitSlash)

namespace Format

/-- No segment of a format leads up. -/
def Downward (f : Text) : Prop := Path.dotDot ∉ splitSlash f

variable {f : Text} (hf : validate f = .ok ())

include hf

/-- The glob of a format that does not lead up has one normal form, which does not lead up either.
-/
theorem exists_patterns_of_downward (hdown : Downward f) :
    ∃ p, Glob.patterns (globOf (parts f)) = [p] ∧ (f.head? ≠ some '/' → p.absolute = false) ∧
      ∀ m, .literal m ∈ p.segments → m ≠ Path.dotDot ∧ '/' ∉ m := by
  have hparts : ∀ part ∈ splitSlash (globOf (parts f)), ∀ m, Glob.Segment.ofText part = .literal m →
      m ≠ Path.dotDot := by
    intro part hpart m hm
    rw [splitSlash_globOf] at hpart
    obtain ⟨q, hq, rfl⟩ := List.mem_map.mp hpart
    rintro rfl
    exact hdown (mem_splitSlash_of_literal hf hq hm (by simp [Path.dotDot]))
  have hempty : ∀ m, Glob.Segment.ofText [] = .literal m → m ≠ Path.dotDot := by
    intro m hm
    obtain rfl : [] = m := Glob.Segment.literal.inj hm
    exact (List.cons_ne_nil _ _).symm
  have hup : Path.dotDot ∉ splitSlash (globOf (parts f)) := fun h => hparts _ h _ rfl rfl
  have hne : globOf (parts f) ≠ [] := by
    obtain ⟨-, -, hs, -⟩ := validate_eq_ok_iff.mp hf
    exact List.ne_nil_of_mem (star_mem_globOf (List.mem_map_of_mem (f := piece) hs))
  obtain ⟨p, hp, habsolute⟩ := Glob.exists_patterns_of_not_mem hne hup
  refine ⟨p, hp, fun h => habsolute (head?_globOf_ne_slash hf h), fun m hm => ?_⟩
  have hmem : p ∈ Glob.patterns (globOf (parts f)) := hp ▸ List.mem_singleton_self p
  obtain ⟨part, hpart, hliteral⟩ := Glob.exists_part_of_mem_patterns hempty
    (fun h => absurd rfl (h Path.dotDot rfl)) hparts hmem hm
  exact ⟨hpart m hliteral.symm, Glob.slash_not_mem_of_mem_patterns hmem hm⟩

end Format

end CaseFiles
