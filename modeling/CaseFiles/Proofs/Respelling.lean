import CaseFiles.Proofs.Placing

/-!
# Spellings of a path

The resolved form of a path may stand for the path wherever names are put below it. Whatever links
there are, on the way to the path or below it, both spellings are resolved to the same path or fail
in the same way. Main statement: `resolve_respelled`.
-/

namespace CaseFiles

open CaseFiles.Path (isName joinSlash splitSlash)

namespace Path

/-- Several paths, each below the one before, in normal form; empty ones are left out. -/
def joinAll (paths : List Text) : Text := normalize (joinSlash (paths.filter (!·.isEmpty)))

/-- Putting one path below another is the case of two paths. -/
theorem joinAll_pair (a b : Text) : joinAll [a, b] = join a b := by
  cases a <;> cases b <;> rfl

theorem joinAll_singleton (p : Text) : joinAll [p] = normalize p := by
  cases p <;> rfl

/-- Names are put below a path all at once. -/
theorem joinAll_cons {p : Text} {names : List Text} (hne : names ≠ [])
    (h : ∀ n ∈ names, n ≠ []) : joinAll (p :: names) = join p (joinSlash names) := by
  have hkept : names.filter (!·.isEmpty) = names :=
    List.filter_eq_self.mpr fun n hn => by simp [h n hn]
  obtain ⟨n, rest, rfl⟩ := List.exists_cons_of_ne_nil hne
  have hpath : joinSlash (n :: rest) ≠ [] := by
    have hn := h n List.mem_cons_self
    cases rest with
    | nil => exact hn
    | cons m rest => exact List.append_ne_nil_of_left_ne_nil hn _
  cases p with
  | nil =>
    rw [joinAll, List.filter_cons_of_neg (by simp), hkept]
    rfl
  | cons c p =>
    rw [joinAll, List.filter_cons_of_pos (by simp), hkept, join, if_neg (by simp),
      if_neg (by simpa using hpath)]
    rfl

/-- Names below a path lead on from the place of the path. -/
theorem locate_joinAll (here : Location) (p : Text) {names : List Text}
    (h : ∀ n ∈ names, isName n = true) :
    locate here (joinAll (p :: names)) = locate here p ++ names := by
  by_cases hne : names = []
  · subst hne
    rw [joinAll_singleton, locate_normalize, List.append_nil]
  · have hplain : ∀ n ∈ names, Plain n := fun n hn => (isName_iff.mp (h n hn)).1
    have hsplit : splitSlash (joinSlash names) = names :=
      splitSlash_joinSlash hne fun n hn => (isName_iff.mp (h n hn)).2.1
    rw [joinAll_cons hne fun n hn => (hplain n hn).1, locate_join (hsplit.symm ▸ hplain), hsplit]

/-- The path of a place names the place. -/
theorem locate_ofLocation (here : Location) {l : Location} (h : ∀ n ∈ l, isName n = true) :
    locate here (ofLocation l) = l := by
  have hsegments : locate here (ofLocation l) = reduce true ([[]] ++ splitSlash (joinSlash l)) := by
    rw [locate, ofLocation, splitSlash_slash]
    rfl
  rw [hsegments]
  by_cases hne : l = []
  · subst hne
    rfl
  · rw [splitSlash_joinSlash hne fun n hn => (isName_iff.mp (h n hn)).2.1]
    exact reduce_append_plain true [[]] fun n hn => (isName_iff.mp (h n hn)).1

end Path

namespace Disk

variable {d : Disk} {p q r : Text} {root : Location}

/-- Paths are settled alike if their locations are. -/
theorem settle_congr (hp : ∀ n ∈ d.locate p, '\x00' ∉ n) (hq : ∀ n ∈ d.locate q, '\x00' ∉ n)
    (h : d.tree.settle (d.locate p) = d.tree.settle (d.locate q)) : d.settle p = d.settle q := by
  rw [settle, settle, any_nul_eq_false_iff.mpr hp, any_nul_eq_false_iff.mpr hq, h]

/-- The path of the place where a path is settled names this place. -/
theorem locate_of_settle (h : d.settle p = .ok root) : d.locate (Path.ofLocation root) = root :=
  Path.locate_ofLocation d.here (isName_of_settle h)

/-- It is settled there, too. -/
theorem settle_ofLocation (h : d.settle p = .ok root) :
    d.settle (Path.ofLocation root) = .ok root := by
  rw [settle_eq_ok_iff, locate_of_settle h]
  exact ⟨fun n hn => (Path.isName_iff.mp (isName_of_settle h n hn)).2.2,
    FileTree.settle_of_settle (settle_eq_ok_iff.mp h).2⟩

/-- Names are settled below it as they are below the path. -/
theorem settle_joinAll {names : List Text} (h : d.settle p = .ok root)
    (hnames : ∀ n ∈ names, isName n = true) :
    d.settle (Path.joinAll (p :: names)) =
      d.settle (Path.joinAll (Path.ofLocation root :: names)) := by
  have hbelow (q : Text) : d.locate (Path.joinAll (q :: names)) = d.locate q ++ names :=
    Path.locate_joinAll d.here q hnames
  have hnul {q : Text} {l : Location} (hq : d.settle q = .ok l) :
      ∀ n ∈ d.locate (Path.joinAll (q :: names)), '\x00' ∉ n := by
    intro n hn
    rw [hbelow] at hn
    rcases List.mem_append.mp hn with hn | hn
    · exact (settle_eq_ok_iff.mp hq).1 n hn
    · exact (Path.isName_iff.mp (hnames n hn)).2.2
  apply settle_congr (hnul h) (hnul (settle_ofLocation h))
  rw [hbelow, hbelow, locate_of_settle h]
  exact FileTree.settle_append_of_settle (settle_eq_ok_iff.mp h).2 names

/-- What a path is resolved to is resolved to itself, and names are resolved below it as they are
below the path. -/
theorem resolve_respelled {names : List Text} (hr : d.resolve p = .ok r)
    (hnames : ∀ n ∈ names, isName n = true) :
    d.resolve r = .ok r ∧
      d.resolve (Path.joinAll (p :: names)) = d.resolve (Path.joinAll (r :: names)) := by
  obtain ⟨root, hroot, rfl⟩ := exists_settle_of_resolve hr
  constructor
  · rw [resolve, settle_ofLocation hroot]
    rfl
  · rw [resolve, resolve, settle_joinAll hroot hnames]

end Disk

/-- A disk with the directory `d`, the link `l` to it, and the link `k` in it that leads nowhere. -/
def danglingDisk : Disk :=
  ⟨((FileTree.empty.insert [] ['d'] .dir).insert [] ['l'] (.link ['d'])).insert [['d']] ['k']
    (.link ['.', '.', '/', 'e']), [], Disk.named_root⟩

/-- Below a link to a directory, and below a link in that directory that leads nowhere, a name is
resolved as it is below the directory. -/
theorem resolve_respelled_below_links :
    danglingDisk.resolve ['l'] = .ok ['/', 'd'] ∧
      danglingDisk.resolve ['/', 'd'] = .ok ['/', 'd'] ∧
      danglingDisk.resolve (Path.joinAll [['l'], ['k'], ['a']]) =
        danglingDisk.resolve (Path.joinAll [['/', 'd'], ['k'], ['a']]) ∧
      danglingDisk.resolve (Path.joinAll [['/', 'd'], ['k'], ['a']]) =
        .ok ['/', 'd', '/', 'k', '/', 'a'] := by
  have hl : danglingDisk.resolve ['l'] = .ok ['/', 'd'] := rfl
  have hnames : ∀ n ∈ [['k'], ['a']], isName n = true := by decide
  obtain ⟨hself, hbelow⟩ := Disk.resolve_respelled hl hnames
  exact ⟨hl, hself, hbelow, rfl⟩

end CaseFiles
