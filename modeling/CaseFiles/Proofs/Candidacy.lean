import CaseFiles.Candidates
import CaseFiles.Proofs.Format.Globbing
import CaseFiles.Proofs.Placing

/-!
# Recognised files as candidates

A file that is recognised lies where its slot is rendered, so it is a candidate exactly if the glob
of the format takes what the slot is rendered into. A misquoted segment is where the two readings of
a format part. Main statements: `locate_of_recognize`, `mem_candidates_iff`,
`mem_candidates_of_recognize`.
-/

namespace CaseFiles

open CaseFiles.Path (Plain splitSlash joinSlash)

/-- The extensions have no slash in them. -/
theorem Ext.slash_not_mem_text (e : Ext) : '/' ∉ e.text := by
  cases e <;> decide

section

variable {d : Disk} {directory f : Text} (ht : d.tree.LinkFree)
  (hdir : d.tree.at? (d.locate directory) = some .dir) (hf : Format.validate f = .ok ())

include ht hdir hf

omit hdir in
/-- A file that is recognised lies below the directory at what its slot is rendered into. -/
theorem locate_of_recognize {p r : Text} {s : Slot}
    (hrec : recognize d directory f p = .ok (some s))
    (hr : Format.render (Format.caseTable s.name s.ext) f = .ok r) :
    d.locate p = d.locate directory ++ splitSlash r := by
  obtain ⟨root, hroot, hplace⟩ := settle_of_recognize hf hrec hr
  rw [((Disk.settle_eq_ok_iff_locate ht).mp hroot).2,
    ((Disk.settle_eq_ok_iff_locate ht).mp hplace).2]

omit ht hdir in
/-- The candidates are what the glob of the format finds, seen from where the program stands. -/
theorem candidates_eq : (candidates d directory f).outcome =
    .ok ((Glob.search d.tree (d.locate directory) (Format.globOf (Format.parts f))).map
      (Path.join directory)) := by
  rw [candidates, Format.globPattern_eq hf]
  rfl

/-- The file of a slot is a candidate exactly if its names fit the glob of the format. -/
theorem mem_candidates_iff {name : Text} {e : Ext} {r : Text} (hslash : '/' ∉ name)
    (hr : Format.render (Format.caseTable name e) f = .ok r)
    (hfile : d.tree.at? (d.locate directory ++ splitSlash r) = some .file) :
    ∃ found, (candidates d directory f).outcome = .ok found ∧
      (Path.join directory r ∈ found ↔ Glob.Fits false (Format.globSegments f) (splitSlash r)) := by
  have hrendered : r = Format.rendered name e.text (Format.parts f) :=
    Except.ok.inj (hr.symm.trans (Format.render_caseTable hf name e))
  have hplain : ∀ n ∈ splitSlash r, Plain n :=
    fun n hn => FileTree.plain_of_at? hfile n (List.mem_append_right _ hn)
  have hext := e.slash_not_mem_text
  have hsearch {g : Text} := Glob.mem_search_iff (p := g) ht hdir
    (Format.plain_globPart hslash hext (hrendered ▸ hplain))
    (Format.plain_of_literal_mem hslash hext (hrendered ▸ hplain))
  refine ⟨_, candidates_eq hf, ?_⟩
  rw [List.mem_map]
  constructor
  · rintro ⟨_, hfound, hjoin⟩
    obtain ⟨ns, rfl, hfound, hfits⟩ := hsearch.mp hfound
    have hns : ∀ n ∈ ns, Plain n :=
      fun n hn => FileTree.plain_of_at? hfound n (List.mem_append_right _ hn)
    have hslashes : ∀ n ∈ ns, '/' ∉ n := fun n hn =>
      (Path.isName_iff.mp (d.tree.isName_of_at? hfound (List.mem_append_right _ hn))).2.1
    have hne : ns ≠ [] := by
      rintro rfl
      rw [List.append_nil, hdir] at hfound
      exact nomatch hfound
    have hsplit := Path.splitSlash_joinSlash hne hslashes
    rwa [← Path.eq_of_join_eq (hsplit.symm ▸ hns) hplain hjoin, hsplit]
  · intro hfits
    exact ⟨r, hsearch.mpr ⟨_, (Path.joinSlash_splitSlash r).symm, hfile, hfits⟩, rfl⟩

/-- A file that is recognised is found by the glob of the format, under the path that its slot is
rendered into, exactly if its names fit the segments of the glob. They do if no segment of the
format is misquoted and none that begins with a field is rendered with a dot in front; if a segment
is misquoted, names without a backslash do not. -/
theorem mem_candidates_of_recognize {p r : Text} {s : Slot}
    (hfile : d.tree.at? (d.locate p) = some .file)
    (hrec : recognize d directory f p = .ok (some s)) (hslash : '/' ∉ s.name)
    (hr : Format.render (Format.caseTable s.name s.ext) f = .ok r) :
    d.locate (Path.join directory r) = d.locate p ∧
      ∃ found, (candidates d directory f).outcome = .ok found ∧
        (Path.join directory r ∈ found ↔
          Glob.Fits false (Format.globSegments f) (splitSlash r)) ∧
        ((∀ q ∈ Format.segments (Format.parts f), ∀ key, q.head? = some (.field key) →
            Glob.isHidden (Format.rendered s.name s.ext.text q) = false) →
          (∀ q ∈ Format.segments (Format.parts f), ¬ Format.Misquoted q) →
            Path.join directory r ∈ found) ∧
        ((∃ q ∈ Format.segments (Format.parts f), Format.Misquoted q) → '\\' ∉ r →
          Path.join directory r ∉ found) := by
  have hplace := locate_of_recognize ht hf hrec hr
  rw [hplace] at hfile
  have hrendered : r = Format.rendered s.name s.ext.text (Format.parts f) :=
    Except.ok.inj (hr.symm.trans (Format.render_caseTable hf s.name s.ext))
  obtain ⟨found, hfound, hmem⟩ := mem_candidates_iff ht hdir hf hslash hr hfile
  refine ⟨?_, found, hfound, hmem, fun hshown hquoted => hmem.mpr ?_, ?_⟩
  · rw [hplace]
    exact Path.locate_join
      (fun n hn => FileTree.plain_of_at? hfile n (List.mem_append_right _ hn)) d.here
  · rw [hrendered]
    exact Format.fits_rendered hslash s.ext.slash_not_mem_text hquoted hshown
  · rintro ⟨q, hq, hmisquoted⟩ hbackslash hcandidate
    refine Format.not_fits_of_misquoted hq hmisquoted (fun n hn hin => hbackslash ?_)
      (hmem.mp hcandidate)
    exact (Path.mem_of_mem_splitSlash hn hin).1

end

/-- A disk with the file `a)/in`, seen from its root. -/
def parenDisk : Disk :=
  ⟨(FileTree.empty.insert [] ['a', ')'] .dir).insert [['a', ')']] ['i', 'n'] .file, [], by simp⟩

theorem linkFree_parenDisk : parenDisk.tree.LinkFree := FileTree.linkFree_of_linkCount rfl

/-- The file is recognised for each slot that is rendered into its path. -/
theorem recognize_parenDisk {f name : Text} {e : Ext} (hf : Format.validate f = .ok ())
    (hname : name ≠ [] ∧ ∀ c ∈ lineEnds, c ∉ name)
    (hr : Format.render (Format.caseTable name e) f = .ok ['a', ')', '/', 'i', 'n']) :
    recognize parenDisk ['.'] f ['a', ')', '/', 'i', 'n'] = .ok (some ⟨name, e⟩) := by
  have hroot : parenDisk.resolve ['.'] = .ok ['/'] := rfl
  have hfile : parenDisk.resolve ['a', ')', '/', 'i', 'n'] = .ok ['/', 'a', ')', '/', 'i', 'n'] :=
    rfl
  exact (recognize_eq_some_iff hf hroot hfile).mpr ⟨hname, _, hr, rfl⟩

/-- The file `a)/in` is a candidate for the format that has a directory for each name. -/
theorem mem_candidates_paren :
    recognize parenDisk ['.'] ['%', 's', '/', '%', 'e'] ['a', ')', '/', 'i', 'n'] =
        .ok (some ⟨['a', ')'], .input⟩) ∧
      ∃ found, (candidates parenDisk ['.'] ['%', 's', '/', '%', 'e']).outcome = .ok found ∧
        ['a', ')', '/', 'i', 'n'] ∈ found := by
  have hrec : recognize parenDisk ['.'] ['%', 's', '/', '%', 'e'] ['a', ')', '/', 'i', 'n'] =
      .ok (some ⟨['a', ')'], .input⟩) :=
    recognize_parenDisk rfl ⟨by simp, by simp [lineEnds]⟩ rfl
  have hdir : parenDisk.tree.at? (parenDisk.locate ['.']) = some .dir := rfl
  have hsegments : Format.segments (Format.parts ['%', 's', '/', '%', 'e']) =
      [[.field 's'], [.field 'e']] := rfl
  obtain ⟨-, found, hfound, -, hcandidate, -⟩ :=
    mem_candidates_of_recognize linkFree_parenDisk hdir rfl rfl hrec (by decide) rfl
  refine ⟨hrec, found, hfound, hcandidate ?_ fun q hq => ?_⟩
  · rw [hsegments]
    intro q hq key _
    rcases List.mem_cons.mp hq with rfl | hq
    · rfl
    · rw [List.mem_singleton.mp hq]
      rfl
  · apply Format.not_misquoted_of_plain
    rw [hsegments] at hq
    intro c hc
    rcases List.mem_cons.mp hq with rfl | hq
    · simp at hc
    · rw [List.mem_singleton.mp hq] at hc
      simp at hc

/-- It is recognised, but no candidate, for a format in which the parenthesis follows the name. -/
theorem not_mem_candidates_paren :
    parenDisk.tree.LinkFree ∧ parenDisk.tree.at? (parenDisk.locate ['.']) = some .dir ∧
      parenDisk.tree.at? (parenDisk.locate ['a', ')', '/', 'i', 'n']) = some .file ∧
      Format.render (Format.caseTable ['a'] .input) ['%', 's', ')', '/', '%', 'e'] =
        .ok ['a', ')', '/', 'i', 'n'] ∧
      recognize parenDisk ['.'] ['%', 's', ')', '/', '%', 'e'] ['a', ')', '/', 'i', 'n'] =
        .ok (some ⟨['a'], .input⟩) ∧
      ∃ found, (candidates parenDisk ['.'] ['%', 's', ')', '/', '%', 'e']).outcome = .ok found ∧
        ['a', ')', '/', 'i', 'n'] ∉ found := by
  have hdir : parenDisk.tree.at? (parenDisk.locate ['.']) = some .dir := rfl
  have hf : Format.validate ['%', 's', ')', '/', '%', 'e'] = .ok () := rfl
  have hr : Format.render (Format.caseTable ['a'] .input) ['%', 's', ')', '/', '%', 'e'] =
      .ok ['a', ')', '/', 'i', 'n'] := rfl
  have hmisquoted : Format.Misquoted [.field 's', .text ')'] :=
    ⟨['s'], [')'], List.cons_ne_nil _ _, rfl, by simp [Glob.unfit], ')', by simp, by decide⟩
  obtain ⟨found, hfound, hmem⟩ :=
    mem_candidates_iff linkFree_parenDisk hdir hf (by decide) hr rfl
  refine ⟨linkFree_parenDisk, hdir, rfl, hr,
    recognize_parenDisk hf ⟨by simp, by simp [lineEnds]⟩ hr, found, hfound, fun hcandidate => ?_⟩
  exact Format.not_fits_of_misquoted List.mem_cons_self hmisquoted (by decide)
    (hmem.mp hcandidate)

end CaseFiles
