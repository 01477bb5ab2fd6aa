import CaseFiles.Listing
import CaseFiles.Proofs.FileTree.LinkFree

/-!
# Making files

Making a file adds it and the directories before it and keeps all else. Files that lie equally deep
below a directory do not get in each other's way, so after making them the directory holds exactly
these files. Main statement: `addAll_levelled`.
-/

namespace CaseFiles

open CaseFiles.Path (Plain isName)

namespace FileTree

/-- The second tree is the first one with directories on the way to a location added to it. -/
structure WithDirs (t t' : FileTree) (way : Location) : Prop where
  kept {l : Location} {k : Entry} : t.at? l = some k → t'.at? l = some k
  added {l : Location} {k : Entry} :
    t'.at? l = some k → t.at? l = some k ∨ (k = .dir ∧ l <+: way)
  isDir : t'.at? way = some .dir

theorem WithDirs.linkFree {t t' : FileTree} {way : Location} (h : WithDirs t t' way)
    (ht : t.LinkFree) : t'.LinkFree := by
  intro l target hl
  rcases h.added hl with hold | ⟨hdir, -⟩
  · exact ht l target hold
  · exact nomatch hdir

/-- No file is made where there was none. -/
theorem WithDirs.ne_file {t t' : FileTree} {way l : Location} (h : WithDirs t t' way)
    (hl : t.at? l ≠ some .file) : t'.at? l ≠ some .file := by
  intro hfile
  rcases h.added hfile with hold | ⟨hdir, -⟩
  · exact hl hold
  · exact nomatch hdir

theorem WithDirs.trans {t t' t'' : FileTree} {way way' : Location} (h : WithDirs t t' way)
    (h' : WithDirs t' t'' way') (hway : way <+: way') : WithDirs t t'' way' := by
  refine ⟨fun hl => h'.kept (h.kept hl), fun hl => ?_, h'.isDir⟩
  rcases h'.added hl with hl | hl
  · rcases h.added hl with hl | ⟨hk, hl⟩
    · exact Or.inl hl
    · exact Or.inr ⟨hk, hl.trans hway⟩
  · exact Or.inr hl

/-- One directory is made where there is nothing. -/
theorem insert_withDirs {t : FileTree} {up : Location} {n : Text} (hn : isName n = true)
    (hdir : t.at? up = some .dir) (hat : t.at? (up ++ [n]) = none) :
    WithDirs t (t.insert up n .dir) (up ++ [n]) := by
  have hinsert := t.at?_insert (l := up) (n := n) .dir ⟨hn, hdir, hat⟩
  refine ⟨fun {l k} hl => ?_, fun {l k} hl => ?_, ?_⟩
  · rw [hinsert]
    split
    · rename_i heq
      rw [heq, hat] at hl
      exact nomatch hl
    · exact hl
  · rw [hinsert] at hl
    split at hl
    · rename_i heq
      exact Or.inr ⟨(Option.some.inj hl).symm, heq ▸ List.prefix_refl _⟩
    · exact Or.inl hl
  · rw [hinsert, if_pos rfl]

/-- The directories that are missing on a way are made if no file stands on it. -/
theorem makeDirs_withDirs {t : FileTree} (ht : t.LinkFree) {before rest : Location}
    (hnames : ∀ n ∈ rest, isName n = true) (hdir : t.at? before = some .dir)
    (hfree : ∀ l, l <+: before ++ rest → t.at? l ≠ some .file) :
    WithDirs t (t.makeDirs before rest) (before ++ rest) := by
  induction rest generalizing t before with
  | nil =>
    rw [makeDirs, List.append_nil]
    exact ⟨id, Or.inl, hdir⟩
  | cons s rest ih =>
    have hs := hnames s List.mem_cons_self
    have hrest n (hn : n ∈ rest) := hnames n (List.mem_cons_of_mem s hn)
    have hassoc : before ++ s :: rest = before ++ [s] ++ rest := by simp
    have hstep : before ++ [s] <+: before ++ [s] ++ rest := List.prefix_append _ _
    rw [makeDirs, locate, walk_snoc ht (Path.isName_iff.mp hs).1 hdir]
    rw [hassoc] at hfree ⊢
    cases hat : t.at? (before ++ [s]) with
    | some k =>
      have hk : k = .dir := by
        cases k with
        | file => exact absurd hat (hfree _ hstep)
        | dir => rfl
        | link target => exact absurd hat (ht _ target)
      rw [if_neg (by simp)]
      exact ih ht hrest (hk ▸ hat) hfree
    | none =>
      rw [if_pos rfl]
      have hmade := insert_withDirs hs hdir hat
      have hmore := ih (hmade.linkFree ht) hrest hmade.isDir fun l hl =>
        hmade.ne_file (hfree l hl)
      exact hmade.trans hmore hstep

/-- The second tree is the first one with a file at a location and directories on the way to it. -/
structure WithFile (t t' : FileTree) (up : Location) (n : Text) : Prop where
  kept {l : Location} {k : Entry} : t.at? l = some k → t'.at? l = some k
  added {l : Location} {k : Entry} : t'.at? l = some k →
    t.at? l = some k ∨ (k = .file ∧ l = up ++ [n]) ∨ (k = .dir ∧ l <+: up)
  isFile : t'.at? (up ++ [n]) = some .file

/-- A file is made if no file stands on the way to it and no directory at its place. -/
theorem make_withFile {t : FileTree} (ht : t.LinkFree) {up : Location} {n : Text}
    (hnames : ∀ s ∈ up ++ [n], isName s = true) (hfree : ∀ l, l <+: up → t.at? l ≠ some .file)
    (hplace : t.at? (up ++ [n]) ≠ some .dir) :
    WithFile t (t.make (up ++ [n]) .file) up n := by
  have hn : isName n = true := hnames n (List.mem_append_right up List.mem_cons_self)
  have hdirs : WithDirs t (t.makeDirs [] up) up :=
    makeDirs_withDirs ht (fun s hs => hnames s (List.mem_append_left [n] hs)) (by simp) hfree
  have hlong : ¬ up ++ [n] <+: up := by
    intro h
    have hlength := h.length_le
    rw [List.length_append, List.length_singleton] at hlength
    omega
  rw [make, List.dropLast_concat,
    walk_snoc (hdirs.linkFree ht) (Path.isName_iff.mp hn).1 hdirs.isDir]
  cases hat : (t.makeDirs [] up).at? (up ++ [n]) with
  | some k =>
    have hold := (hdirs.added hat).resolve_right fun h => hlong h.2
    have hk : k = .file := by
      cases k with
      | file => rfl
      | dir => exact absurd hold hplace
      | link target => exact absurd hold (ht _ target)
    rw [if_neg (by simp)]
    exact ⟨hdirs.kept, fun hl => (hdirs.added hl).imp_right Or.inr, hk ▸ hat⟩
  | none =>
    rw [if_pos rfl]
    have hinsert := (t.makeDirs [] up).at?_insert (l := up) (n := n) .file ⟨hn, hdirs.isDir, hat⟩
    refine ⟨fun {l k} hl => ?_, fun {l k} hl => ?_, ?_⟩
    · rw [hinsert]
      split
      · rename_i heq
        rw [heq] at hl
        rw [hdirs.kept hl] at hat
        exact nomatch hat
      · exact hdirs.kept hl
    · rw [hinsert] at hl
      split at hl
      · rename_i heq
        exact Or.inr (Or.inl ⟨(Option.some.inj hl).symm, heq⟩)
      · exact (hdirs.added hl).imp_right Or.inr
    · rw [hinsert, if_pos rfl]

/-- In a tree without links a directory holds exactly the given files, all of them below so many
directories of their own. -/
structure Levelled (t : FileTree) (root : Location) (depth : Nat) (files : List Location) :
    Prop where
  linkFree : t.LinkFree
  isDir : t.at? root = some .dir
  file_iff (l : Location) : t.at? (root ++ l) = some .file ↔ l ∈ files
  file_depth {l : Location} : l ∈ files → l.length = depth + 1
  dir_depth {l : Location} : t.at? (root ++ l) = some .dir → l.length ≤ depth

/-- Nothing is at or below an empty directory but the directory. -/
theorem levelled_of_empty {t : FileTree} {root : Location} (ht : t.LinkFree)
    (hdir : t.at? root = some .dir) (hempty : t.children root = []) (depth : Nat) :
    t.Levelled root depth [] := by
  have hbelow {l : Location} {k : Entry} (h : t.at? (root ++ l) = some k) : l = [] := by
    cases l with
    | nil => rfl
    | cons n l =>
      have hchild : ∃ k, t.at? (root ++ [n]) = some k := by
        have hassoc : root ++ n :: l = root ++ [n] ++ l := by simp
        rw [hassoc] at h
        by_cases hl : l = []
        · exact ⟨k, by rwa [hl, List.append_nil] at h⟩
        · exact ⟨.dir, at?_dir_of_append h hl⟩
      obtain ⟨k, hk⟩ := hchild
      rw [← mem_children, hempty] at hk
      exact nomatch hk
  refine ⟨ht, hdir, fun l => ⟨fun h => ?_, fun h => (nomatch h)⟩, fun h => (nomatch h), fun h => ?_⟩
  · obtain rfl := hbelow h
    rw [List.append_nil, hdir] at h
    exact nomatch h
  · rw [hbelow h]
    exact Nat.zero_le depth

/-- Nothing is in the way of one more file at that level. -/
theorem Levelled.make_withFile {t : FileTree} {root : Location} {depth : Nat}
    {files : List Location} (h : t.Levelled root depth files) {up : Location} {n : Text}
    (hnames : ∀ s ∈ up ++ [n], isName s = true) (hup : up.length = depth) :
    WithFile t (t.make (root ++ up ++ [n]) .file) (root ++ up) n := by
  refine FileTree.make_withFile h.linkFree (fun s hs => ?_) (fun l hl hfile => ?_) fun hdir => ?_
  · rw [List.append_assoc] at hs
    rcases List.mem_append.mp hs with hs | hs
    · exact t.isName_of_at? h.isDir hs
    · exact hnames s hs
  · rcases List.prefix_or_prefix_of_prefix hl (List.prefix_append root up) with hroot | ⟨l', rfl⟩
    · rw [at?_dir_above h.isDir hroot] at hfile
      exact nomatch hfile
    · have hlevel := h.file_depth ((h.file_iff l').mp hfile)
      have hlength := ((List.prefix_append_right_inj root).mp hl).length_le
      omega
  · rw [List.append_assoc] at hdir
    have hlevel := h.dir_depth hdir
    rw [List.length_append, List.length_singleton] at hlevel
    omega

/-- One more file at that level can be made. -/
theorem Levelled.make {t : FileTree} {root : Location} {depth : Nat} {files : List Location}
    (h : t.Levelled root depth files) {way : Location} (hnames : ∀ n ∈ way, isName n = true)
    (hdepth : way.length = depth + 1) :
    (t.make (root ++ way) .file).Levelled root depth (way :: files) := by
  have hne : way ≠ [] := by
    rintro rfl
    exact nomatch hdepth
  obtain ⟨up, n, rfl⟩ : ∃ up n, way = up ++ [n] :=
    ⟨way.dropLast, way.getLast hne, (List.dropLast_concat_getLast hne).symm⟩
  have hup : up.length = depth := by simpa using hdepth
  have hmade := h.make_withFile hnames hup
  rw [← List.append_assoc]
  refine ⟨?_, hmade.kept h.isDir, ?_, ?_, ?_⟩
  · intro l target hl
    rcases hmade.added hl with hl | ⟨hk, -⟩ | ⟨hk, -⟩
    · exact h.linkFree l target hl
    · exact nomatch hk
    · exact nomatch hk
  · intro l
    rw [List.mem_cons]
    constructor
    · intro hl
      rcases hmade.added hl with hl | ⟨-, hl⟩ | ⟨hk, -⟩
      · exact Or.inr ((h.file_iff l).mp hl)
      · rw [List.append_assoc] at hl
        exact Or.inl (List.append_cancel_left hl)
      · exact nomatch hk
    · rintro (rfl | hl)
      · rw [← List.append_assoc]
        exact hmade.isFile
      · exact hmade.kept ((h.file_iff l).mpr hl)
  · intro l hl
    rcases List.mem_cons.mp hl with rfl | hl
    · exact hdepth
    · exact h.file_depth hl
  · intro l hl
    rcases hmade.added hl with hl | ⟨hk, -⟩ | ⟨-, hl⟩
    · exact h.dir_depth hl
    · exact nomatch hk
    · have hlength := hl.length_le
      rw [List.length_append, List.length_append] at hlength
      omega

end FileTree

namespace Disk

/-- After making files at one level below a directory, the directory holds these as well. -/
theorem addAll_levelled {d : Disk} {root : Location} {depth : Nat} {files : List Location}
    (h : d.tree.Levelled root depth files) {paths : List Text} {way : Text → Location}
    (hpaths : ∀ p ∈ paths, d.locate p = root ++ way p ∧ (∀ n ∈ way p, isName n = true) ∧
      (way p).length = depth + 1) :
    (d.addAll (paths.map fun p => ⟨p, .file⟩)).here = d.here ∧
      ∃ files', (∀ l, l ∈ files' ↔ l ∈ files ∨ ∃ p ∈ paths, l = way p) ∧
        (d.addAll (paths.map fun p => ⟨p, .file⟩)).tree.Levelled root depth files' := by
  induction paths generalizing d files with
  | nil => exact ⟨rfl, files, by simp, h⟩
  | cons p paths ih =>
    obtain ⟨hlocate, hnames, hdepth⟩ := hpaths p List.mem_cons_self
    have hadd : (d.add ⟨p, .file⟩).tree.Levelled root depth (way p :: files) := by
      rw [add, hlocate]
      exact h.make hnames hdepth
    obtain ⟨hhere, files', hfiles, hall⟩ :=
      ih hadd fun q hq => hpaths q (List.mem_cons_of_mem p hq)
    refine ⟨hhere, files', fun l => ?_, hall⟩
    rw [hfiles, List.mem_cons]
    simp only [List.mem_cons, exists_eq_or_imp]
    tauto

end Disk

end CaseFiles
