import CaseFiles.FileTree.Resolve
import CaseFiles.Proofs.Path.Normalizing

/-!
# Trees without links

Where there are no symbolic links, a way of plain names leads to the location with these names, if
anywhere, so looking up, listing and resolving are read off the locations of the tree. Main
statements: `entry?_eq_ok_iff`, `find_eq_ok_iff`, `list_eq` and `resolve_eq`.
-/

namespace CaseFiles

open CaseFiles.Path (Plain)

namespace FileTree

/-- No location holds a symbolic link. -/
def LinkFree (t : FileTree) : Prop := ∀ l target, t.at? l ≠ some (.link target)

/-- What is above something in the tree is a directory. -/
theorem at?_dir_of_append {t : FileTree} {l way : Location} {k : Entry}
    (h : t.at? (l ++ way) = some k) (hway : way ≠ []) : t.at? l = some .dir := by
  induction way using List.reverseRecOn generalizing k with
  | nil => exact absurd rfl hway
  | append_singleton way n ih =>
    rw [← List.append_assoc] at h
    have hdir := t.at?_dir_of_child h
    by_cases hnil : way = []
    · rwa [hnil, List.append_nil] at hdir
    · exact ih hdir hnil

/-- What is on the way to a directory is one. -/
theorem at?_dir_above {t : FileTree} {l m : Location} (h : t.at? m = some .dir)
    (hl : l <+: m) : t.at? l = some .dir := by
  obtain ⟨way, rfl⟩ := hl
  by_cases hway : way = []
  · rwa [hway, List.append_nil] at h
  · exact at?_dir_of_append h hway

/-- The names in a directory are those at which there is something. -/
theorem mem_children {t : FileTree} {l : Location} {n : Text} {k : Entry} :
    (n, k) ∈ t.children l ↔ t.at? (l ++ [n]) = some k := by
  rw [at?_eq_some_iff, children, List.mem_filterMap]
  constructor
  · rintro ⟨⟨place, k'⟩, hmem, hp⟩
    cases hlast : place.getLast? with
    | none => simp [hlast] at hp
    | some n' =>
      obtain ⟨up, rfl⟩ := List.getLast?_eq_some_iff.mp hlast
      simp only [hlast, Option.ite_none_right_eq_some, Option.some.injEq, Prod.mk.injEq,
        List.dropLast_concat] at hp
      obtain ⟨rfl, rfl, rfl⟩ := hp
      exact Or.inr hmem
  · rintro (⟨h, -⟩ | h)
    · exact absurd h (by simp)
    · exact ⟨_, h, by simp⟩

theorem plain_of_at? {t : FileTree} {l : Location} {k : Entry} (h : t.at? l = some k) :
    ∀ n ∈ l, Plain n :=
  fun _ hn => (Path.isName_iff.mp (t.isName_of_at? h hn)).1

/-- There are no links where none are counted. -/
theorem linkFree_of_linkCount {t : FileTree} (h : t.linkCount = 0) : t.LinkFree := by
  intro l target hat
  rcases t.at?_eq_some_iff.mp hat with ⟨-, hdir⟩ | hmem
  · cases hdir
  · exact List.countP_eq_zero.mp h _ hmem rfl

section

variable {t : FileTree} (ht : t.LinkFree)

include ht

/-- A way on from a directory ends at its last name, or in the directory before it. -/
theorem walkFrom_snoc {followLast : Bool} {follow : Location → List Text → Walk}
    {l way : Location} {n : Text} (hplain : ∀ s ∈ way ++ [n], Plain s)
    (hdir : t.at? (l ++ way) = some .dir) :
    t.walkFrom followLast follow l (way ++ [n]) =
      if t.at? (l ++ way ++ [n]) = none then .vacant (l ++ way) n else .found (l ++ way ++ [n]) := by
  induction way generalizing l with
  | nil =>
    obtain ⟨hne, hdot, hup⟩ := hplain n List.mem_cons_self
    rw [List.nil_append, walkFrom, if_neg (not_or.mpr ⟨hne, hdot⟩), if_neg hup, List.append_nil]
    cases hat : t.at? (l ++ [n]) with
    | none => rfl
    | some k =>
      cases k with
      | file => rfl
      | dir => rfl
      | link target => exact absurd hat (ht _ target)
  | cons s way ih =>
    obtain ⟨hne, hdot, hup⟩ := hplain s List.mem_cons_self
    have hs : t.at? (l ++ [s]) = some .dir :=
      at?_dir_above hdir (List.prefix_append_right_inj l |>.mpr (List.prefix_append [s] way))
    have hassoc : l ++ s :: way = l ++ [s] ++ way := by simp
    rw [List.cons_append, walkFrom, if_neg (not_or.mpr ⟨hne, hdot⟩), if_neg hup, hs, hassoc]
    rw [hassoc] at hdir
    exact ih (fun u hu => hplain u (List.mem_cons_of_mem s hu)) hdir

/-- A way that ends at something ends at the location with its names. -/
theorem eq_of_walkFrom {followLast : Bool} {follow : Location → List Text → Walk}
    {l l' way : Location} (hplain : ∀ s ∈ way, Plain s) (hl : t.at? l ≠ none)
    (h : t.walkFrom followLast follow l way = .found l') : l' = l ++ way ∧ t.at? l' ≠ none := by
  induction way generalizing l with
  | nil =>
    obtain rfl := Walk.found.inj h
    exact ⟨(List.append_nil l).symm, hl⟩
  | cons s way ih =>
    obtain ⟨hne, hdot, hup⟩ := hplain s List.mem_cons_self
    rw [walkFrom, if_neg (not_or.mpr ⟨hne, hdot⟩), if_neg hup] at h
    have hassoc : l ++ s :: way = l ++ [s] ++ way := by simp
    cases hat : t.at? (l ++ [s]) with
    | none =>
      rw [hat] at h
      cases way <;> exact nomatch h
    | some k =>
      rw [hat] at h
      cases k with
      | file =>
        cases way with
        | nil =>
          obtain rfl := Walk.found.inj h
          exact ⟨rfl, by simp [hat]⟩
        | cons u way => exact nomatch h
      | dir =>
        rw [hassoc]
        exact ih (fun u hu => hplain u (List.mem_cons_of_mem s hu)) (by simp [hat]) h
      | link target => exact absurd hat (ht _ target)

/-- The way to something that is in the tree ends there. -/
theorem walk_of_at? {followLast : Bool} {fuel : Nat} {l : Location} {k : Entry}
    (h : t.at? l = some k) : t.walk followLast fuel [] l = .found l := by
  have hplain := plain_of_at? h
  have hstart (follow : Location → List Text → Walk) :
      t.walkFrom followLast follow [] l = .found l := by
    induction l using List.reverseRecOn with
    | nil => rfl
    | append_singleton way n _ =>
      rw [walkFrom_snoc ht hplain (t.at?_dir_of_child h), if_neg (by simp [h])]
      rfl
  cases fuel <;> exact hstart _

theorem eq_of_walk {followLast : Bool} {fuel : Nat} {l l' : Location} (hplain : ∀ s ∈ l, Plain s)
    (h : t.walk followLast fuel [] l = .found l') : l' = l ∧ t.at? l' ≠ none := by
  have hroot : t.at? [] ≠ none := by simp
  cases fuel <;> exact eq_of_walkFrom ht hplain hroot h

/-- A way that goes on from a directory ends at its last name, or in the directory. -/
theorem walk_snoc {followLast : Bool} {fuel : Nat} {way : Location} {n : Text} (hn : Plain n)
    (hdir : t.at? way = some .dir) :
    t.walk followLast fuel [] (way ++ [n]) =
      if t.at? (way ++ [n]) = none then .vacant way n else .found (way ++ [n]) := by
  have hplain : ∀ s ∈ way ++ [n], Plain s := by
    intro s hs
    rcases List.mem_append.mp hs with hs | hs
    · exact plain_of_at? hdir s hs
    · rwa [List.mem_singleton.mp hs]
  cases fuel <;> exact walkFrom_snoc ht hplain hdir

variable {l : Location} (hplain : ∀ s ∈ l, Plain s)

include hplain

/-- What is found at the end of a way is what is at its location. -/
theorem entry?_eq_ok_iff {k : Entry} : t.entry? l = .ok k ↔ t.at? l = some k := by
  constructor
  · intro h
    unfold entry? at h
    cases hwalk : t.walk false mostLinks [] l with
    | vacant place n => simp [hwalk] at h
    | fault f => simp [hwalk] at h
    | found place =>
      obtain ⟨rfl, -⟩ := eq_of_walk ht hplain hwalk
      rw [hwalk] at h
      cases hat : t.at? place with
      | none => simp [hat] at h
      | some k' =>
        simp only [hat, Option.elim_some, Except.ok.injEq] at h
        rw [h]
  · intro h
    unfold entry?
    rw [walk_of_at? ht h]
    simp [h]

/-- The place at the end of a way is its location, if there is something. -/
theorem find_eq_ok_iff {l' : Location} : t.find l = .ok l' ↔ l' = l ∧ t.at? l ≠ none := by
  constructor
  · intro h
    unfold find locate at h
    cases hwalk : t.walk true mostLinks [] l with
    | vacant place n => simp [hwalk] at h
    | fault f => simp [hwalk] at h
    | found place =>
      obtain ⟨rfl, hat⟩ := eq_of_walk ht hplain hwalk
      simp only [hwalk, Except.ok.injEq] at h
      exact ⟨h.symm, hat⟩
  · rintro ⟨rfl, hat⟩
    obtain ⟨k, hk⟩ := Option.ne_none_iff_exists'.mp hat
    rw [find, locate, walk_of_at? ht hk]

/-- The names that are listed are those in the directory at the location. -/
theorem list_eq : t.list l = t.children l := by
  rw [list]
  cases hfind : t.find l with
  | ok l' =>
    obtain ⟨rfl, -⟩ := (find_eq_ok_iff ht hplain).mp hfind
    rfl
  | error f =>
    have hnone : t.at? l = none := by
      by_contra hat
      rw [(find_eq_ok_iff ht hplain).mpr ⟨rfl, hat⟩] at hfind
      exact nomatch hfind
    refine (List.eq_nil_iff_forall_not_mem.mpr ?_).symm
    rintro ⟨n, k⟩ hmem
    rw [t.at?_dir_of_child (mem_children.mp hmem)] at hnone
    exact nomatch hnone

end

section

variable {t : FileTree} (ht : t.LinkFree)

include ht

/-- What is resolved is where it is, and nothing leads round in a circle. -/
theorem realFrom_cases {follow : Location → Except Fault Location} (l way : Location) :
    t.realFrom follow l way = .ok (l ++ way) ∨
      t.realFrom follow l way = .error .missing ∨ t.realFrom follow l way = .error .notDirectory := by
  induction way generalizing l with
  | nil =>
    rw [realFrom, List.append_nil]
    exact Or.inl rfl
  | cons s way ih =>
    have hassoc : l ++ s :: way = l ++ [s] ++ way := by simp
    rw [hassoc, realFrom]
    cases hat : t.at? (l ++ [s]) with
    | some k =>
      cases k with
      | file | dir => exact ih (l ++ [s])
      | link target => exact absurd hat (ht _ target)
    | none =>
      apply Or.inr
      by_cases hdir : t.isDir l = true
      · exact Or.inl (by rw [if_pos hdir])
      · exact Or.inr (by rw [if_neg hdir])

theorem real_cases (l : Location) :
    t.real l = .ok l ∨ t.real l = .error .missing ∨ t.real l = .error .notDirectory := by
  unfold real
  cases t.linkCount <;> exact realFrom_cases ht [] l

/-- Every location is settled, whether something is there or not. -/
theorem settle_eq (l : Location) : t.settle l = .ok l := by
  have hup (names : List Text) : t.settleUp names = .ok names.reverse := by
    induction names with
    | nil => rfl
    | cons n up ih =>
      rw [settleUp]
      rcases real_cases ht (n :: up).reverse with h | h | h
      · rw [h]
      · rw [h, ih, List.reverse_cons]
        rfl
      · rw [h, ih, List.reverse_cons]
        rfl
  rw [settle, hup, List.reverse_reverse]

end

end FileTree

/-- A path names a location by names. -/
theorem Disk.plain_locate (d : Disk) (p : Text) : ∀ n ∈ d.locate p, Plain n :=
  fun _ hn => (Path.plain_of_mem_reduce hn).2

/-- A path can be looked up if none of its segments has a NUL character in it. -/
theorem Disk.any_nul_eq_false_iff {d : Disk} {p : Text} :
    (d.locate p).any (·.contains '\x00') = false ↔ ∀ n ∈ d.locate p, '\x00' ∉ n := by
  simp [List.any_eq_false]

/-- Without links a path is resolved by working off its segments. -/
theorem Disk.resolve_eq {d : Disk} (ht : d.tree.LinkFree) {p : Text}
    (hnul : ∀ n ∈ d.locate p, '\x00' ∉ n) :
    d.resolve p = .ok (Path.ofLocation (d.locate p)) := by
  rw [resolve, settle, any_nul_eq_false_iff.mpr hnul, if_neg (by decide), FileTree.settle_eq ht]
  rfl

end CaseFiles
