import CaseFiles.Proofs.FileTree.Settling
import CaseFiles.Proofs.Recognition

/-!
# Where files belong

The path at which a file of a test case belongs is recognised for its slot, in whatever way the
directory is spelled and whether it exists or not, unless symbolic links below the directory lead
away. Wherever links lead, a file that is recognised really lies below the directory, at what its slot
is rendered into. Main statements: `settle_of_recognize`, `recognize_pathFor`.
-/

namespace CaseFiles

open CaseFiles.Path (splitSlash joinSlash isName)
open FileTree (NoLinks Proper)

namespace Disk

variable {d : Disk} {directory r : Text} {root : Location}

/-- A path is settled if its segments can be looked up and its place is settled. -/
theorem settle_eq_ok_iff {p : Text} :
    d.settle p = .ok root ↔
      (∀ n ∈ d.locate p, '\x00' ∉ n) ∧ d.tree.settle (d.locate p) = .ok root := by
  rw [← any_nul_eq_false_iff, settle]
  cases (d.locate p).any (·.contains '\x00') with
  | true => simp
  | false => cases d.tree.settle (d.locate p) <;> simp

/-- Without links a path is settled at its location. -/
theorem settle_eq_ok_iff_locate (ht : d.tree.LinkFree) {p : Text} :
    d.settle p = .ok root ↔ (∀ n ∈ d.locate p, '\x00' ∉ n) ∧ d.locate p = root := by
  rw [settle_eq_ok_iff, FileTree.settle_eq ht, Except.ok.injEq]

/-- A path is resolved if it is settled. -/
theorem exists_settle_of_resolve {p : Text} (h : d.resolve p = .ok r) :
    ∃ root, d.settle p = .ok root ∧ Path.ofLocation root = r := by
  rw [resolve] at h
  cases hsettle : d.settle p with
  | error cause =>
    rw [hsettle] at h
    cases h
  | ok root =>
    rw [hsettle] at h
    exact ⟨root, rfl, Except.ok.inj h⟩

/-- The segments of a location that a path names can be told apart in a path. -/
theorem proper_of_mem_locate {p n : Text} (h : n ∈ d.locate p) : Proper n := by
  obtain ⟨hmem, hplain⟩ := Path.plain_of_mem_reduce h
  refine ⟨hplain.1, ?_⟩
  split at hmem
  · exact Path.slash_not_mem_of_mem_splitSlash hmem
  · rcases List.mem_append.mp hmem with hhere | hpath
    · exact (Path.isName_iff.mp (d.named n hhere)).2.1
    · exact Path.slash_not_mem_of_mem_splitSlash hpath

/-- A path without a NUL character can be looked up. -/
theorem nul_not_mem_locate {p : Text} (hp : '\x00' ∉ p) : ∀ n ∈ d.locate p, '\x00' ∉ n := by
  intro n hn hnul
  obtain ⟨hmem, -⟩ := Path.plain_of_mem_reduce hn
  have hpath (h : n ∈ splitSlash p) : False := hp (Path.mem_of_mem_splitSlash h hnul).1
  split at hmem
  · exact hpath hmem
  · rcases List.mem_append.mp hmem with hhere | hmem
    · exact (Path.isName_iff.mp (d.named n hhere)).2.2 hnul
    · exact hpath hmem

/-- So can one path below another. -/
theorem nul_not_mem_locate_join (d : Disk) {p q : Text} (hp : '\x00' ∉ p) (hq : '\x00' ∉ q) :
    ∀ n ∈ d.locate (Path.join p q), '\x00' ∉ n := by
  have hnormal {t : Text} (ht : '\x00' ∉ t) : ∀ n ∈ d.locate (Path.normalize t), '\x00' ∉ n := by
    rw [locate, Path.locate_normalize]
    exact nul_not_mem_locate ht
  unfold Path.join
  split
  · exact hnormal hq
  · split
    · exact hnormal hp
    · apply hnormal
      rw [List.mem_append, List.mem_cons, not_or, not_or]
      exact ⟨hp, by decide, hq⟩

/-- The place of a path, real as far as it exists, has proper names. -/
theorem isName_of_settle {p : Text} (h : d.settle p = .ok root) : ∀ n ∈ root, isName n = true := by
  obtain ⟨hnul, hsettle⟩ := settle_eq_ok_iff.mp h
  refine FileTree.forall_mem_of_settle (fun _ hn => hn) (fun n hn => ?_) hsettle
  exact Path.isName_iff.mpr
    ⟨(Path.plain_of_mem_reduce hn).2, (proper_of_mem_locate hn).2, hnul n hn⟩

/-- A path of names below a directory is settled below the place of the directory if no links are on
the way. -/
theorem settle_join (hroot : d.settle directory = .ok root)
    (hnames : ∀ n ∈ splitSlash r, isName n = true) (hlinks : d.tree.NoLinks root (splitSlash r)) :
    d.settle (Path.join directory r) = .ok (root ++ splitSlash r) := by
  obtain ⟨hnul, hsettle⟩ := settle_eq_ok_iff.mp hroot
  have hplace : d.locate (Path.join directory r) = d.locate directory ++ splitSlash r :=
    Path.locate_join (fun n hn => (Path.isName_iff.mp (hnames n hn)).1) d.here
  rw [settle_eq_ok_iff, hplace]
  refine ⟨fun n hn => ?_, FileTree.settle_append hsettle hlinks⟩
  rcases List.mem_append.mp hn with hn | hn
  · exact hnul n hn
  · exact (Path.isName_iff.mp (hnames n hn)).2.2

/-- The resolved path of what lies below a directory is that of the directory and the rest. -/
theorem resolve_join (hroot : d.settle directory = .ok root)
    (hnames : ∀ n ∈ splitSlash r, isName n = true) (hlinks : d.tree.NoLinks root (splitSlash r)) :
    d.resolve (Path.join directory r) = .ok (asParent (Path.ofLocation root) ++ r) := by
  have hproper : ∀ n ∈ root, n ≠ [] ∧ '/' ∉ n := fun n hn =>
    have hname := Path.isName_iff.mp (isName_of_settle hroot n hn)
    ⟨hname.1.1, hname.2.1⟩
  have hpath := ofLocation_append hproper (Path.splitSlash_ne_nil r)
  rw [Path.joinSlash_splitSlash] at hpath
  rw [resolve, settle_join hroot hnames hlinks, ← hpath]
  rfl

end Disk

/-- Locations with the same path are the same if they are not the root. -/
theorem ofLocation_injOn {a b : Location} (ha : a ≠ []) (hb : b ≠ []) (hslasha : ∀ n ∈ a, '/' ∉ n)
    (hslashb : ∀ n ∈ b, '/' ∉ n) (h : Path.ofLocation a = Path.ofLocation b) : a = b := by
  have hjoin : joinSlash a = joinSlash b := (List.cons.inj h).2
  rw [← Path.splitSlash_joinSlash ha hslasha, hjoin, Path.splitSlash_joinSlash hb hslashb]

/-- A format that locates test cases is rendered into something, as it has a place for the name. -/
theorem Format.render_ne_nil {f name r : Text} {e : Ext} (hf : validate f = .ok ())
    (hname : name ≠ []) (hr : render (caseTable name e) f = .ok r) : r ≠ [] := by
  obtain ⟨-, -, hs, -⟩ := validate_eq_ok_iff.mp hf
  obtain ⟨c, hc⟩ := List.exists_mem_of_ne_nil name hname
  obtain rfl := Except.ok.inj ((render_caseTable hf name e).symm.trans hr)
  exact List.ne_nil_of_mem (List.mem_flatMap.mpr ⟨_, hs, hc⟩)

/-- The root has the path of nothing below a directory. -/
theorem ofLocation_nil_ne {root : Location} {r : Text} (hr : r ≠ []) :
    Path.ofLocation [] ≠ asParent (Path.ofLocation root) ++ r := by
  intro h
  have hlength := congrArg List.length h
  have hparent : 0 < (asParent (Path.ofLocation root)).length := by
    unfold asParent
    split <;> simp [Path.ofLocation]
  have hpos := List.length_pos_iff.mpr hr
  have hroot : (Path.ofLocation []).length = 1 := rfl
  rw [List.length_append] at hlength
  omega

section

variable {d : Disk} {directory f r : Text} (hf : Format.validate f = .ok ())

include hf

/-- What a slot is rendered into is recognised below the directory, unless a link leads away from
there. -/
theorem recognize_join {name : Text} {e : Ext} {root : Location} (hroot : d.settle directory = .ok root)
    (hname : name ≠ [] ∧ ∀ c ∈ lineEnds, c ∉ name)
    (hr : Format.render (Format.caseTable name e) f = .ok r)
    (hnames : ∀ n ∈ splitSlash r, isName n = true) (hlinks : d.tree.NoLinks root (splitSlash r)) :
    recognize d directory f (Path.join directory r) = .ok (some ⟨name, e⟩) := by
  have hdirectory : d.resolve directory = .ok (Path.ofLocation root) := by
    rw [Disk.resolve, hroot]
    rfl
  have hfile := Disk.resolve_join hroot hnames hlinks
  exact (recognize_eq_some_iff hf hdirectory hfile).mpr ⟨hname, r, hr, rfl⟩

/-- A file that is recognised lies below the directory, at the names that its slot is rendered
into. -/
theorem settle_of_recognize {p : Text} {s : Slot} (hrec : recognize d directory f p = .ok (some s))
    (hr : Format.render (Format.caseTable s.name s.ext) f = .ok r) :
    ∃ root, d.settle directory = .ok root ∧ d.settle p = .ok (root ++ splitSlash r) := by
  obtain ⟨_, _, hroot, hfile⟩ := exists_resolve_of_recognize hf hrec
  obtain ⟨⟨hname, -⟩, r', hr', hpath⟩ := (recognize_eq_some_iff hf hroot hfile).mp hrec
  obtain rfl := Except.ok.inj (hr.symm.trans hr')
  obtain ⟨root, hsettle, rfl⟩ := Disk.exists_settle_of_resolve hroot
  obtain ⟨place, hplace, rfl⟩ := Disk.exists_settle_of_resolve hfile
  have hproper {q : Text} {l : Location} (h : d.settle q = .ok l) : ∀ n ∈ l, n ≠ [] ∧ '/' ∉ n :=
    fun n hn =>
      have hisName := Path.isName_iff.mp (Disk.isName_of_settle h n hn)
      ⟨hisName.1.1, hisName.2.1⟩
  have hbelow := ofLocation_append (hproper hsettle) (Path.splitSlash_ne_nil r)
  rw [Path.joinSlash_splitSlash] at hbelow
  refine ⟨root, hsettle, ?_⟩
  rw [hplace]
  refine congrArg Except.ok (ofLocation_injOn ?_ ?_ ?_ ?_ (hpath.trans hbelow.symm))
  · rintro rfl
    exact ofLocation_nil_ne (Format.render_ne_nil hf hname hr) hpath
  · exact List.append_ne_nil_of_right_ne_nil _ (Path.splitSlash_ne_nil _)
  · exact fun n hn => (hproper hplace n hn).2
  · intro n hn
    rcases List.mem_append.mp hn with hn | hn
    · exact (hproper hsettle n hn).2
    · exact Path.slash_not_mem_of_mem_splitSlash hn

end

/-- The path at which a file of a test case belongs is recognised for the slot of the file. -/
theorem recognize_pathFor {d : Disk} {directory f name r : Text} {e : Ext} {root : Location}
    (hf : Format.validate f = .ok ()) (hroot : d.settle directory = .ok root)
    (hname : name ≠ [] ∧ ∀ c ∈ lineEnds, c ∉ name)
    (hr : Format.render (Format.caseTable name e) f = .ok r)
    (hnames : ∀ n ∈ splitSlash r, isName n = true) (hlinks : d.tree.NoLinks root (splitSlash r)) :
    ∃ path, Format.pathFor directory f name e = .ok path ∧
      recognize d directory f path = .ok (some ⟨name, e⟩) := by
  have hpath : Format.pathFor directory f name e = .ok (Path.join directory r) := by
    rw [Format.pathFor, hr]
    rfl
  exact ⟨_, hpath, recognize_join hf hroot hname hr hnames hlinks⟩

/-- A program may stand at the root. -/
theorem Disk.named_root : ∀ n ∈ ([] : Location), Path.isName n = true := List.forall_mem_nil _

/-- A disk with the directory `d` and the link `l` to it, seen from its root. -/
def linkedDisk : Disk :=
  ⟨(FileTree.empty.insert [] ['d'] .dir).insert [] ['l'] (.link ['d']), [], Disk.named_root⟩

/-- The output of the test case `a/b` belongs into a directory that does not exist yet, below a
linked one, and is recognised there. -/
theorem recognize_pathFor_below_link :
    linkedDisk.settle ['l', '/', 'n'] = .ok [['d'], ['n']] ∧
      ∃ path, Format.pathFor ['l', '/', 'n'] Format.default ['a', '/', 'b'] .output = .ok path ∧
        recognize linkedDisk ['l', '/', 'n'] Format.default path =
          .ok (some ⟨['a', '/', 'b'], .output⟩) := by
  have hroot : linkedDisk.settle ['l', '/', 'n'] = .ok [['d'], ['n']] := rfl
  refine ⟨hroot, recognize_pathFor rfl hroot ⟨by simp, by simp [lineEnds]⟩ rfl ?_ ?_⟩
  · decide
  · intro front _ _ target hlink
    have hentries : linkedDisk.tree.entries = [([['l']], .link ['d']), ([['d']], .dir)] := rfl
    rcases (FileTree.at?_eq_some_iff _).mp hlink with ⟨-, hdir⟩ | hmem
    · cases hdir
    · rw [hentries] at hmem
      simp at hmem

end CaseFiles
