import CaseFiles.Listing
import CaseFiles.Proofs.Candidacy
import CaseFiles.Proofs.Format.Descent
import CaseFiles.Proofs.Glob.Searching

/-!
# The order of candidates

What a glob finds is returned in strictly increasing order, but the directory is put in front of it
afterwards. That keeps the order if the format does not lead up, unless the directory is a link that
is found itself, which only a segment that is empty or `.` brings about. Main statement:
`candidates_increasing`.
-/

namespace CaseFiles

open CaseFiles.Path (Plain splitSlash joinSlash)

namespace Glob

variable {t : FileTree} {l x : Location}

/-- If a directory finds itself, it is all that is found, unless it is a link from which the glob
goes on. -/
theorem eq_of_self_mem_find {p : Pattern} (habsolute : p.absolute = false)
    (hp : ∀ m, .literal m ∈ p.segments → m ≠ Path.dotDot ∧ '/' ∉ m)
    (hlink : linkAt t l = false ∨ p.segments = [.globstar]) (hself : l ∈ find t l p)
    (hx : x ∈ find t l p) : x = l := by
  have hstart : start l p = l := if_neg (by simp [habsolute])
  have hwalk := mem_walk_of_mem_find hx
  obtain ⟨-, k, hentry, hleaf⟩ := below_of_mem_find hp hself
  obtain ⟨⟨ns, rfl, -⟩, k', hentry', -⟩ := below_of_mem_find hp hx
  rw [habsolute] at hwalk
  rw [hstart] at hentry' hwalk ⊢
  by_cases hlinkAt : linkAt t l = true
  · rw [hlink.resolve_left (by simp [hlinkAt])] at hwalk
    exact eq_of_mem_walk_link (by simp) hlinkAt hwalk
  · have hfile : k = .file := by
      unfold linkAt at hlinkAt
      rw [hentry] at hlinkAt
      cases k with
      | file => rfl
      | dir => cases hleaf
      | link target => exact absurd rfl hlinkAt
    subst hfile
    rw [FileTree.eq_nil_of_entry?_append hentry hentry', List.append_nil]

/-- Whatever else is found is returned under the names that lead to it. -/
theorem exists_names_of_mem_find {p : Pattern}
    (hp : ∀ m, .literal m ∈ p.segments → m ≠ Path.dotDot ∧ '/' ∉ m) (hx : x ∈ find t l p)
    (hself : p.absolute = false → x ≠ l) :
    ∃ names, names ≠ [] ∧ (∀ n ∈ names, Plain n ∧ '/' ∉ n) ∧
      pathOf l p x = (if p.absolute then ['/'] else []) ++ joinSlash names := by
  obtain ⟨⟨names, rfl, hnames⟩, k, hentry, hleaf⟩ := below_of_mem_find hp hx
  unfold start at hentry hself ⊢
  unfold pathOf
  cases habsolute : p.absolute with
  | true =>
    rw [habsolute] at hentry
    refine ⟨names, ?_, hnames, rfl⟩
    rintro rfl
    obtain rfl : .dir = k := Except.ok.inj hentry
    cases hleaf
  | false =>
    rw [habsolute] at hself
    have hne : names ≠ [] := by
      rintro rfl
      exact hself rfl (List.append_nil l)
    exact ⟨names, hne, hnames, relative_append hne⟩

end Glob

section

variable {d : Disk} {directory f : Text}

/-- The candidates are in order if the format does not lead up and finds the directory alone, if at
all. -/
theorem increasing_join_search {p : Glob.Pattern} {g : Text} (hg : Glob.patterns g = [p])
    (hp : ∀ m, .literal m ∈ p.segments → m ≠ Path.dotDot ∧ '/' ∉ m)
    (hlink : p.absolute = false → d.locate directory ∈ Glob.find d.tree (d.locate directory) p →
      Glob.linkAt d.tree (d.locate directory) = false ∨ p.segments = [.globstar]) :
    Text.Increasing ((Glob.search d.tree (d.locate directory) g).map (Path.join directory)) := by
  have hsearch := Glob.increasing_search d.tree (d.locate directory) g
  have hmem {m : Text} (hm : m ∈ Glob.search d.tree (d.locate directory) g) :
      ∃ x ∈ Glob.find d.tree (d.locate directory) p, Glob.pathOf (d.locate directory) p x = m := by
    obtain ⟨q, hq, x, hx, rfl⟩ := Glob.mem_search.mp hm
    rw [hg] at hq
    obtain rfl := List.mem_singleton.mp hq
    exact ⟨x, hx, rfl⟩
  by_cases hself : p.absolute = false ∧ d.locate directory ∈ Glob.find d.tree (d.locate directory) p
  · refine hsearch.map_of_forall_eq (a := Path.dot) fun m hm => ?_
    obtain ⟨x, hx, rfl⟩ := hmem hm
    obtain rfl := Glob.eq_of_self_mem_find hself.1 hp (hlink hself.1 hself.2) hself.2 hx
    rw [Glob.pathOf, hself.1]
    exact Glob.relative_self _
  · obtain ⟨front, hfront⟩ := Path.exists_join_eq_append directory p.absolute
    refine hsearch.map_append (if p.absolute then ['/'] else []) front fun m hm => ?_
    obtain ⟨x, hx, rfl⟩ := hmem hm
    obtain ⟨names, hne, hnames, hpath⟩ := Glob.exists_names_of_mem_find hp hx fun habsolute heq =>
      hself ⟨habsolute, heq ▸ hx⟩
    exact ⟨joinSlash names, hpath, hpath ▸ hfront names hne hnames⟩

/-- What the glob of a format finds is in strictly increasing order. The candidates, which have the
directory in front of it, are in this order, too, if the format goes straight, and if it does not
lead up and the directory itself is no link. -/
theorem candidates_increasing (hf : Format.validate f = .ok ()) :
    ∃ g, Format.globPattern f = .ok g ∧
      (candidates d directory f).outcome =
        .ok ((Glob.search d.tree (d.locate directory) g).map (Path.join directory)) ∧
      Text.Increasing (Glob.search d.tree (d.locate directory) g) ∧
      ((∀ s ∈ splitSlash f, Plain s) ∨
          (Path.dotDot ∉ splitSlash f ∧ Glob.linkAt d.tree (d.locate directory) = false) →
        Text.Increasing ((Glob.search d.tree (d.locate directory) g).map (Path.join directory))) := by
  refine ⟨_, Format.globPattern_eq hf, candidates_eq hf, Glob.increasing_search _ _ _, ?_⟩
  rintro (hdirect | ⟨hdown, hlink⟩)
  · obtain ⟨hparts, hliterals⟩ := Format.plain_glob_of_direct hf hdirect
    refine increasing_join_search (Glob.patterns_of_plain hparts)
      (fun m hm => ⟨(hliterals m hm).2.2, Format.slash_not_mem_of_literal_mem hm⟩)
      fun _ hself => Or.inr ?_
    by_contra hstars
    exact Nat.lt_irrefl _ (Glob.length_lt_of_mem_walk hliterals (Or.inr hstars)
      (Glob.mem_walk_of_mem_find hself))
  · obtain ⟨p, hp, -, hliterals⟩ := Format.exists_patterns_of_downward hf hdown
    exact increasing_join_search hp hliterals fun _ _ => Or.inl hlink

end

/-- A disk with the directory `sub`, a directory and the file `a.in` in it, and the file `t.in`
beside it, seen from the directory `w` in which all of them are. -/
def siblingDisk : Disk :=
  (Disk.bare [['w']] (by decide)).addAll
    [.ofPath ['s', 'u', 'b', '/', 'y', '/'], .ofPath ['s', 'u', 'b', '/', 'a', '.', 'i', 'n'],
      .ofPath ['t', '.', 'i', 'n']]

theorem search_everywhere :
    Glob.search siblingDisk.tree (siblingDisk.locate ['.']) ['*', '*'] =
      [['s', 'u', 'b', '/', 'a', '.', 'i', 'n'], ['t', '.', 'i', 'n']] :=
  Glob.search_eq_of_perm (by decide) (by decide +kernel)

theorem search_up :
    Glob.search siblingDisk.tree (siblingDisk.locate ['s', 'u', 'b'])
        ['*', '*', '/', '.', '.', '/', '*', '.', '*'] =
      [['.', '.', '/', 't', '.', 'i', 'n'], ['a', '.', 'i', 'n']] :=
  Glob.search_eq_of_perm (by decide) (by decide +kernel)

/-- All files are found in order. -/
theorem candidates_increasing_everywhere :
    Format.validate ['%', 's', '%', 'e'] = .ok () ∧
      (candidates siblingDisk ['.'] ['%', 's', '%', 'e']).outcome =
        .ok [['s', 'u', 'b', '/', 'a', '.', 'i', 'n'], ['t', '.', 'i', 'n']] ∧
      Text.Increasing [['s', 'u', 'b', '/', 'a', '.', 'i', 'n'], ['t', '.', 'i', 'n']] := by
  obtain ⟨g, hg, hout, -, hincreasing⟩ :=
    @candidates_increasing siblingDisk ['.'] ['%', 's', '%', 'e'] rfl
  obtain rfl : ['*', '*'] = g := Except.ok.inj hg
  rw [search_everywhere] at hout hincreasing
  have hdirect : ∀ s ∈ splitSlash ['%', 's', '%', 'e'], Plain s := by
    simp [splitSlash, Plain, Path.dot, Path.dotDot]
  exact ⟨rfl, hout, hincreasing (Or.inl hdirect)⟩

/-- What is beside the directory is found under `..`, which comes before the names in the directory.
With the directory in front it comes after them. -/
theorem candidates_not_increasing :
    Format.validate ['%', 's', '%', 'e', '/', '.', '.', '/', '%', 's', '.', '%', 'e'] = .ok () ∧
      (candidates siblingDisk ['s', 'u', 'b']
          ['%', 's', '%', 'e', '/', '.', '.', '/', '%', 's', '.', '%', 'e']).outcome =
        .ok [['t', '.', 'i', 'n'], ['s', 'u', 'b', '/', 'a', '.', 'i', 'n']] ∧
      ¬ Text.Increasing [['t', '.', 'i', 'n'], ['s', 'u', 'b', '/', 'a', '.', 'i', 'n']] := by
  refine ⟨rfl, ?_, by decide⟩
  exact congrArg (fun ms => Except.ok (ms.map (Path.join ['s', 'u', 'b']))) search_up

end CaseFiles
