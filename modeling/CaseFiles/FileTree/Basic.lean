import CaseFiles.Association
import CaseFiles.Path

/-!
# File trees

What a disk holds: files, directories and symbolic links at their locations. Every name in the tree
is a proper name, no location is taken twice, and what is not directly under the root lies in a
directory. Main statements: what is at a location is what is listed for it (`at?_eq_some_iff`), and
each change keeps all else (`at?_insert`, `at?_erase`).
-/

namespace CaseFiles

/-- What can be at a location. -/
inductive Entry where
  | file
  | dir
  /-- A symbolic link with the text of its target. -/
  | link (target : Text)
  deriving DecidableEq, Repr

/-- The entries of a disk below its root. -/
structure FileTree where
  entries : List (Location × Entry)
  named : ∀ e ∈ entries, ∀ n ∈ e.1, Path.isName n = true
  distinct : (([], .dir) :: entries |>.map Prod.fst).Nodup
  inDirs : ∀ l n k, (l ++ [n], k) ∈ entries → l = [] ∨ (l, .dir) ∈ entries

namespace FileTree

/-- A disk with nothing on it. -/
def empty : FileTree where
  entries := []
  named := by simp
  distinct := by simp
  inDirs := by simp

/-- What is at a location; the root is a directory. -/
def at? (t : FileTree) (l : Location) : Option Entry := (([], .dir) :: t.entries).lookup l

/-- Whether a location is a directory. -/
def isDir (t : FileTree) (l : Location) : Bool := t.at? l == some .dir

/-- The names in a directory and what they are. -/
def children (t : FileTree) (l : Location) : List (Text × Entry) :=
  t.entries.filterMap fun (place, k) =>
    match place.getLast? with
    | some n => if place.dropLast = l then some (n, k) else none
    | none => none

/-- What is at a location is what is listed for it. -/
theorem at?_eq_some_iff (t : FileTree) {l : Location} {k : Entry} :
    t.at? l = some k ↔ (l = [] ∧ k = .dir) ∨ (l, k) ∈ t.entries := by
  rw [at?, lookup_eq_some_iff t.distinct, List.mem_cons, Prod.mk.injEq]

@[simp] theorem at?_root (t : FileTree) : t.at? [] = some .dir := by
  rw [at?_eq_some_iff]
  exact Or.inl ⟨rfl, rfl⟩

/-- What is in the tree lies in a directory of the tree. -/
theorem at?_dir_of_child (t : FileTree) {l : Location} {n : Text} {k : Entry}
    (h : t.at? (l ++ [n]) = some k) : t.at? l = some .dir := by
  rw [at?_eq_some_iff] at h ⊢
  rcases h with ⟨h, _⟩ | h
  · simp at h
  · exact (t.inDirs l n k h).imp (fun he => ⟨he, rfl⟩) id

/-- The names on the way to what is in the tree are proper. -/
theorem isName_of_at? (t : FileTree) {l : Location} {k : Entry} (h : t.at? l = some k) {n : Text}
    (hn : n ∈ l) : Path.isName n = true := by
  rw [at?_eq_some_iff] at h
  rcases h with ⟨rfl, _⟩ | h
  · simp at hn
  · exact t.named _ h n hn

/-- Nothing is listed at a location where there is nothing. -/
theorem not_mem_of_at?_eq_none (t : FileTree) {l : Location} (h : t.at? l = none) :
    l ∉ ((([], .dir) :: t.entries).map Prod.fst : List Location) := by
  intro hm
  obtain ⟨⟨l', k⟩, hk, rfl⟩ := List.mem_map.mp hm
  rw [← lookup_eq_some_iff t.distinct] at hk
  simp [at?, hk] at h

/-- Puts an entry into a directory, unless the directory is missing or the place taken. -/
def insert (t : FileTree) (l : Location) (n : Text) (k : Entry) : FileTree :=
  if h : Path.isName n = true ∧ t.at? l = some .dir ∧ t.at? (l ++ [n]) = none then
    { entries := (l ++ [n], k) :: t.entries
      named := by
        rintro e (_ | ⟨_, he⟩) m hm
        · rcases List.mem_append.mp hm with hm | hm
          · exact t.isName_of_at? h.2.1 hm
          · rw [List.mem_singleton.mp hm]
            exact h.1
        · exact t.named e he m hm
      distinct := by
        have hn := t.not_mem_of_at?_eq_none h.2.2
        have hd := t.distinct
        rw [List.map_cons, List.nodup_cons] at hd
        rw [List.map_cons, List.mem_cons, not_or] at hn
        rw [List.map_cons, List.map_cons, List.nodup_cons, List.nodup_cons, List.mem_cons, not_or]
        exact ⟨⟨fun he => hn.1 he.symm, hd.1⟩, hn.2, hd.2⟩
      inDirs := by
        intro l' n' k' hm
        rcases List.mem_cons.mp hm with he | hm
        · obtain ⟨rfl, _⟩ := List.append_inj' (Prod.mk.inj he).1 rfl
          rcases (t.at?_eq_some_iff).mp h.2.1 with ⟨hl, _⟩ | hl
          · exact Or.inl hl
          · exact Or.inr (List.mem_cons_of_mem _ hl)
        · exact (t.inDirs l' n' k' hm).imp id (List.mem_cons_of_mem _) }
  else t

/-- Takes away what is at a location and below it. -/
def erase (t : FileTree) (l : Location) : FileTree where
  entries := t.entries.filter fun e => !l.isPrefixOf e.1
  named e he := t.named e (List.mem_filter.mp he).1
  distinct := by
    refine t.distinct.sublist ?_
    rw [List.map_cons, List.map_cons]
    exact (List.filter_sublist.map Prod.fst).cons_cons _
  inDirs := by
    intro p n k hm
    obtain ⟨hm, hp⟩ := List.mem_filter.mp hm
    refine (t.inDirs p n k hm).imp id fun hd => List.mem_filter.mpr ⟨hd, ?_⟩
    rw [Bool.not_eq_true', Bool.eq_false_iff] at hp ⊢
    refine fun h => hp ?_
    rw [List.isPrefixOf_iff_prefix] at h ⊢
    exact h.trans (List.prefix_append p [n])

/-- A new entry is at its place, and all else stays. -/
theorem at?_insert (t : FileTree) {l : Location} {n : Text} (k : Entry)
    (h : Path.isName n = true ∧ t.at? l = some .dir ∧ t.at? (l ++ [n]) = none) (l' : Location) :
    (t.insert l n k).at? l' = if l' = l ++ [n] then some k else t.at? l' := by
  rw [insert, dif_pos h, at?, at?, List.lookup_cons, List.lookup_cons, List.lookup_cons]
  by_cases hr : l' = []
  · subst hr
    simp
  · have hf : (l' == ([] : Location)) = false := by simpa using hr
    simp only [hf]
    by_cases he : l' = l ++ [n]
    · simp [he]
    · have hb : (l' == l ++ [n]) = false := by simpa using he
      simp only [hb, if_neg he]

/-- What is not at or below an erased location stays. -/
theorem at?_erase (t : FileTree) {l l' : Location} (h : ¬ l <+: l') :
    (t.erase l).at? l' = t.at? l' := by
  apply Option.ext
  intro k
  have hf : l.isPrefixOf l' = false := by
    rw [Bool.eq_false_iff, ne_eq, List.isPrefixOf_iff_prefix]
    exact h
  rw [at?_eq_some_iff, at?_eq_some_iff, erase, List.mem_filter, hf]
  simp only [Bool.not_false, and_true]

end FileTree

end CaseFiles
