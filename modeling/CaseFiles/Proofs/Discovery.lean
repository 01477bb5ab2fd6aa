import CaseFiles.Proofs.Detours
import CaseFiles.Proofs.Duplicates
import CaseFiles.Proofs.Glob.Staying
import CaseFiles.Proofs.Saving

/-!
# What is discovered

The test cases that are discovered have all candidates but the backups, each in the slot that its
resolved path is rendered from. A candidate lies as deep below the directory as the format has
segments, so if no link leads away from it, this is the slot whose path the candidate is. On a disk
without links all files that are discovered are where they belong, and no two are in each other's
way. Main statements: `mem_discovered_iff`, `discover_sound`, `discover_resolved`.
-/

namespace CaseFiles

open CaseFiles.Format (Direct globOf parts rendered)

open CaseFiles.Path (Plain splitSlash joinSlash)

/-- What is below a directory is seen from it under a path that leads there. -/
theorem Disk.locate_join_relative (d : Disk) {directory : Text} (hne : directory ≠ [])
    {ns : Location} (hns : ∀ n ∈ ns, Plain n ∧ '/' ∉ n) :
    d.locate (Path.join directory
      (Glob.relative (d.locate directory) (d.locate directory ++ ns))) =
        d.locate directory ++ ns := by
  by_cases hnil : ns = []
  · have hdot : Path.dot ≠ [] := List.cons_ne_nil _ _
    rw [hnil, List.append_nil, Glob.relative_self, Disk.locate,
      Path.locate_join_eq_foldl hne hdot]
    exact List.reverse_reverse _
  · have hsplit := Path.splitSlash_joinSlash hnil fun n hn => (hns n hn).2
    rw [Glob.relative_append hnil, Disk.locate,
      Path.locate_join (hsplit.symm ▸ fun n hn => (hns n hn).1), hsplit]
    rfl

/-- Whatever a format is rendered into is at least as deep as the format. -/
theorem Format.length_segments_le (name ext : Text) (ps : List Part) :
    (Format.segments ps).length ≤ (splitSlash (rendered name ext ps)).length := by
  rw [Format.splitSlash_rendered_flatMap]
  induction Format.segments ps with
  | nil => exact Nat.le_refl 0
  | cons q qs ih =>
    have hpos := List.length_pos_iff.mpr (Path.splitSlash_ne_nil (rendered name ext q))
    rw [List.flatMap_cons, List.length_append, List.length_cons]
    omega

namespace Locator

variable {loc : Locator} {d : Disk}

/-- Slots that are rendered alike are the same. -/
theorem rendered_injective (loc : Locator) : Function.Injective loc.rendered := by
  rintro ⟨name, e⟩ ⟨name', e'⟩ h
  obtain ⟨rfl, rfl⟩ :=
    Format.slot_eq_of_fill_eq loc.valid Ext.text rfl (by decide) (by decide) h
  rfl

section

variable {found : List Text} {cases : List Case} (hglob : (loc.glob d).outcome = .ok found)
  (hcases : (loc.discover d).outcome = .ok cases)

include hglob hcases

/-- All candidates but the backups are recognised if there are test cases. -/
theorem exists_slot_of_discover {q : Text} (hq : q ∈ found) (hbackup : isBackup q = false) :
    ∃ s, recognize d loc.directory loc.format q = .ok (some s) := by
  rw [outcome_discover hglob] at hcases
  obtain ⟨slot, hslot, -⟩ := exists_slot_of_pair loc.valid hcases
  exact ⟨slot q, hslot q (List.mem_filter.mpr ⟨hq, by rw [hbackup]; rfl⟩)⟩

/-- The files of the test cases are the candidates but the backups, each in the slot that it is
recognised for. -/
theorem mem_discovered_iff {s : Slot} {q : Text} :
    (s, q) ∈ cases.flatMap Case.filled ↔ q ∈ found ∧ isBackup q = false ∧
      recognize d loc.directory loc.format q = .ok (some s) := by
  rw [outcome_discover hglob] at hcases
  obtain ⟨slot, hslot, -, -, horderly, hin⟩ := exists_slot_of_pair loc.valid hcases
  rw [mem_flatMap_filled horderly, hin, List.mem_filter, Bool.not_eq_true', and_assoc]
  refine and_congr_right fun hq => and_congr_right fun hbackup => ?_
  rw [hslot q (List.mem_filter.mpr ⟨hq, by rw [hbackup]; rfl⟩), Except.ok.injEq,
    Option.some.injEq]

end

section

variable (ht : d.tree.LinkFree)

include ht

/-- A candidate that is recognised is a file, below the directory at what its slot is rendered
into. -/
theorem eq_rendered_of_recognize {r : Text} {s : Slot}
    (hr : r ∈ Glob.search d.tree (d.locate loc.directory) (globOf (parts loc.format)))
    (hrec : recognize d loc.directory loc.format (Path.join loc.directory r) = .ok (some s)) :
    r = loc.rendered s ∧
      d.locate (Path.join loc.directory r) = d.locate loc.directory ++ splitSlash r ∧
      d.tree.at? (d.locate (Path.join loc.directory r)) = some .file := by
  have hplace := locate_of_recognize ht loc.valid hrec (loc.render_eq s)
  obtain ⟨hparts, hliterals⟩ :=
    Format.plain_glob_of_direct loc.valid (direct_of_recognize loc.valid hrec)
  obtain ⟨ns, rfl, hfile⟩ := Glob.exists_of_mem_search ht (d.plain_locate _) hparts hliterals hr
  have hlocate := d.locate_join_relative loc.directory_ne_nil fun n hn =>
    Glob.telling_of_isName (d.tree.isName_of_at? hfile (List.mem_append_right _ hn))
  rw [hlocate] at hplace ⊢
  obtain rfl := List.append_cancel_left hplace
  rw [Glob.relative_append (Path.splitSlash_ne_nil _), Path.joinSlash_splitSlash]
  exact ⟨rfl, rfl, hfile⟩

/-- No candidate is in another one's way. Two of them in one slot would be where this is rendered,
but the glob finds a path only once. -/
theorem not_stops_duplicateFile {n p q : Text} {e : Ext} {found : List Text}
    (hglob : (loc.glob d).outcome = .ok found) :
    ¬ Stops d loc.directory loc.format (found.filter (!isBackup ·)) (.duplicateFile n e p q) := by
  intro hstops
  obtain rfl := Except.ok.inj (hglob.symm.trans (candidates_eq loc.valid))
  obtain ⟨hpair, hp, hq⟩ := slot_of_stops loc.valid hstops
  obtain ⟨rels, hrels, hmap⟩ := List.sublist_map_iff.mp (hpair.trans List.filter_sublist)
  obtain ⟨r, rest, rfl, rfl, hrest⟩ := List.map_eq_cons_iff.mp hmap.symm
  obtain ⟨r', rest', rfl, rfl, -⟩ := List.map_eq_cons_iff.mp hrest
  obtain ⟨hr, -⟩ := eq_rendered_of_recognize ht (hrels.mem List.mem_cons_self) hp
  obtain ⟨hr', -⟩ :=
    eq_rendered_of_recognize ht (hrels.mem (List.mem_cons_of_mem r List.mem_cons_self)) hq
  have hdistinct := (Glob.nodup_search _ _).sublist hrels
  rw [hr, hr'] at hdistinct
  exact absurd List.mem_cons_self (List.nodup_cons.mp hdistinct).1

/-- What is discovered has the path at which it belongs, and there is a file at this path, strictly
below the directory. -/
theorem placed_of_discover {cases : List Case} (hcases : (loc.discover d).outcome = .ok cases)
    {s : Slot} {q : Text} (hq : (s, q) ∈ cases.flatMap Case.filled) :
    loc.pathFor s.name s.ext = .ok q ∧ d.tree.at? (d.locate q) = some .file ∧
      ∃ way, way ≠ [] ∧ d.locate q = d.locate loc.directory ++ way := by
  obtain ⟨hfound, -, hrec⟩ := (mem_discovered_iff (candidates_eq loc.valid) hcases).mp hq
  obtain ⟨r, hr, rfl⟩ := List.mem_map.mp hfound
  obtain ⟨hrendered, hplace, hfile⟩ := eq_rendered_of_recognize ht hr hrec
  exact ⟨hrendered ▸ loc.pathFor_eq s, hfile, _, Path.splitSlash_ne_nil r, hplace⟩

/-- Where there are no links, no two files are in each other's way. The inputs and the outputs that
are discovered are the files that belong to their test cases, and they lie below the directory. -/
theorem discover_sound :
    (∀ n e p q, (loc.discover d).outcome ≠ .error (.duplicateFile n e p q)) ∧
      ∀ cases, (loc.discover d).outcome = .ok cases → ∀ c ∈ cases,
        loc.pathFor c.name .input = .ok c.input ∧
        (∀ output, c.output = some output → loc.pathFor c.name .output = .ok output) ∧
        ∀ p, p = c.input ∨ c.output = some p →
          d.tree.at? (d.locate p) = some .file ∧
            ∃ way, way ≠ [] ∧ d.locate p = d.locate loc.directory ++ way := by
  constructor
  · intro n e p q h
    rw [outcome_discover (candidates_eq loc.valid)] at h
    rcases fault_of_pair loc.valid h with hstops | ⟨_, _, hcause⟩ | hcause
    · exact not_stops_duplicateFile ht (candidates_eq loc.valid) hstops
    · cases hcause
    · cases hcause
  · intro cases hcases c hc
    have hfilled {s : Slot} {q : Text} (hq : (s, q) ∈ c.filled) :=
      placed_of_discover ht hcases (List.mem_flatMap.mpr ⟨c, hc, hq⟩)
    have hinput : (⟨c.name, .input⟩, c.input) ∈ c.filled := Case.mem_filled.mpr ⟨rfl, rfl⟩
    have houtput {q : Text} (hq : c.output = some q) : (⟨c.name, .output⟩, q) ∈ c.filled :=
      Case.mem_filled.mpr ⟨rfl, hq⟩
    refine ⟨(hfilled hinput).1, fun q hq => (hfilled (houtput hq)).1, ?_⟩
    rintro p (rfl | hp)
    · exact (hfilled hinput).2
    · exact (hfilled (houtput hp)).2

end

/-- The locator that takes any file below where the program stands, by the ending of its path. -/
def everywhere : Locator := here ['%', 's', '%', 'e'] rfl

/-- A disk with an input in the directory `x`, seen from its root. -/
def nestedDisk : Disk := (Disk.bare [] Disk.named_root).addAll [.ofPath ['x', '/', 'a', '.', 'i', 'n']]

/-- An input that is found by a globstar is filed under the rest of its path, where it belongs. -/
theorem discover_sound_nested :
    nestedDisk.tree.LinkFree ∧
      (everywhere.discover nestedDisk).outcome =
        .ok [⟨['x', '/', 'a', '.'], ['x', '/', 'a', '.', 'i', 'n'], none⟩] ∧
      everywhere.pathFor ['x', '/', 'a', '.'] .input = .ok ['x', '/', 'a', '.', 'i', 'n'] ∧
      nestedDisk.tree.at? (nestedDisk.locate ['x', '/', 'a', '.', 'i', 'n']) = some .file := by
  have ht : nestedDisk.tree.LinkFree := FileTree.linkFree_of_linkCount (by decide +kernel)
  have hcases : (everywhere.discover nestedDisk).outcome =
      .ok [⟨['x', '/', 'a', '.'], ['x', '/', 'a', '.', 'i', 'n'], none⟩] := by
    decide +kernel
  obtain ⟨hinput, -, hfiles⟩ := (discover_sound ht).2 _ hcases _ List.mem_cons_self
  exact ⟨ht, hcases, hinput, (hfiles _ (Or.inl rfl)).1⟩

/-- The candidates for a format that goes straight are below the directory, wherever links lead. -/
theorem exists_way_of_mem_glob {found : List Text} (hglob : (loc.glob d).outcome = .ok found)
    (hdirect : Direct loc.format) {p : Text} (hp : p ∈ found) :
    ∃ way, d.locate p = d.locate loc.directory ++ way := by
  obtain rfl := Except.ok.inj (hglob.symm.trans (candidates_eq loc.valid))
  obtain ⟨r, hr, rfl⟩ := List.mem_map.mp hp
  obtain ⟨hparts, hliterals⟩ := Format.plain_glob_of_direct loc.valid hdirect
  obtain ⟨_, hx, rfl⟩ := Glob.exists_walk_of_mem_search hparts hr
  obtain ⟨ns, rfl, hns⟩ := Glob.below_of_mem_walk
    (fun m hm => ⟨(hliterals m hm).2.2, Format.slash_not_mem_of_literal_mem hm⟩) hx
  exact ⟨ns, d.locate_join_relative loc.directory_ne_nil hns⟩

/-- If no link leads away from where a file belongs, the file is recognised for the slot that it
belongs to: it lies as deep as the format, so the names on the way to it are those that the slot is
rendered into. -/
theorem slot_eq_of_noLinks {name path : Text} {e : Ext} {s : Slot} {place way : Location}
    (hname : name ≠ [] ∧ ∀ c ∈ lineEnds, c ∉ name) (hslash : '/' ∉ name)
    (hpath : loc.pathFor name e = .ok path)
    (hrec : recognize d loc.directory loc.format path = .ok (some s))
    (hplace : d.settle loc.directory = .ok place)
    (hway : d.locate path = d.locate loc.directory ++ way) (hlinks : d.tree.NoLinks place way) :
    s = ⟨name, e⟩ := by
  obtain ⟨place', hplace', hsettle⟩ := settle_of_recognize loc.valid hrec (loc.render_eq s)
  obtain rfl := Except.ok.inj (hplace.symm.trans hplace')
  have hbelow := FileTree.settle_append (Disk.settle_eq_ok_iff.mp hplace).2 hlinks
  have hfile := (Disk.settle_eq_ok_iff.mp hsettle).2
  rw [hway, hbelow, Except.ok.injEq, List.append_cancel_left_eq] at hfile
  obtain rfl : path = loc.path ⟨name, e⟩ :=
    Except.ok.inj (hpath.symm.trans (loc.pathFor_eq ⟨name, e⟩))
  have hdepth : (splitSlash (loc.rendered ⟨name, e⟩)).length ≤ way.length := by
    rw [rendered, Format.splitSlash_rendered hslash e.slash_not_mem_text, List.length_map, hfile]
    exact Format.length_segments_le _ _ _
  have hnames := Path.eq_splitSlash_of_locate_join loc.directory_ne_nil
    (Format.render_ne_nil loc.valid hname.1 (loc.render_eq ⟨name, e⟩)) hway hdepth
  apply loc.rendered_injective
  rw [← Path.joinSlash_splitSlash (loc.rendered s), ← hfile, hnames, Path.joinSlash_splitSlash]

/-- A candidate that is discovered is filed in exactly one slot, the one that its resolved path is
rendered from. This is the slot that the candidate belongs to exactly if its resolved path is the one
of that slot. So it is if no link is on the way from the directory to the candidate. -/
theorem discover_resolved {name path : Text} {e : Ext} {found : List Text} {cases : List Case}
    (hglob : (loc.glob d).outcome = .ok found) (hcases : (loc.discover d).outcome = .ok cases)
    (hname : name ≠ [] ∧ ∀ c ∈ lineEnds, c ∉ name) (hslash : '/' ∉ name)
    (hpath : loc.pathFor name e = .ok path) (hfound : path ∈ found)
    (hbackup : isBackup path = false) :
    ∃ root file s, d.resolve loc.directory = .ok root ∧ d.resolve path = .ok file ∧
      (∃ r, Format.render (Format.caseTable s.name s.ext) loc.format = .ok r ∧
        file = asParent root ++ r) ∧
      (∀ s', (s', path) ∈ cases.flatMap Case.filled ↔ s' = s) ∧
      (s = ⟨name, e⟩ ↔ ∃ r, Format.render (Format.caseTable name e) loc.format = .ok r ∧
        file = asParent root ++ r) ∧
      ∃ place way, d.settle loc.directory = .ok place ∧
        d.locate path = d.locate loc.directory ++ way ∧
          (d.tree.NoLinks place way → s = ⟨name, e⟩) := by
  obtain ⟨s, hrec⟩ := exists_slot_of_discover hglob hcases hfound hbackup
  obtain ⟨root, file, hroot, hfile⟩ := exists_resolve_of_recognize loc.valid hrec
  obtain ⟨place, hplace, -⟩ := settle_of_recognize loc.valid hrec (loc.render_eq s)
  obtain ⟨way, hway⟩ :=
    exists_way_of_mem_glob hglob (direct_of_recognize loc.valid hrec) hfound
  have hspelled := ((recognize_eq_some_iff loc.valid hroot hfile).mp hrec).2
  refine ⟨root, file, s, hroot, hfile, hspelled, fun s' => ?_, ?_, place, way, hplace, hway,
    slot_eq_of_noLinks hname hslash hpath hrec hplace hway⟩
  · rw [mem_discovered_iff hglob hcases, and_iff_right hfound, and_iff_right hbackup, hrec,
      Except.ok.injEq, Option.some.injEq, eq_comm]
  · constructor
    · rintro rfl
      exact hspelled
    · intro hspelled'
      have hrec' := (recognize_eq_some_iff loc.valid hroot hfile).mpr ⟨hname, hspelled'⟩
      exact Option.some.inj (Except.ok.inj (hrec.symm.trans hrec'))

/-- A disk with the input `sub/b.in` and the link `a.in` to it, seen from its root. -/
def aliasDisk : Disk :=
  (Disk.bare [] Disk.named_root).addAll
    [.ofPath ['s', 'u', 'b', '/', 'b', '.', 'i', 'n'],
      ⟨['a', '.', 'i', 'n'], .link ['s', 'u', 'b', '/', 'b', '.', 'i', 'n']⟩]

/-- The link is the only candidate. -/
theorem glob_aliasDisk :
    ((here Format.default rfl).glob aliasDisk).outcome = .ok [['a', '.', 'i', 'n']] := by
  decide +kernel

theorem discover_aliasDisk :
    ((here Format.default rfl).discover aliasDisk).outcome =
      .ok [⟨['s', 'u', 'b', '/', 'b'], ['a', '.', 'i', 'n'], none⟩] := by
  decide +kernel

/-- A link is filed under the name that its target has, and under no other one. -/
theorem discover_resolved_link :
    ((here Format.default rfl).glob aliasDisk).outcome = .ok [['a', '.', 'i', 'n']] ∧
      ∃ cases, ((here Format.default rfl).discover aliasDisk).outcome = .ok cases ∧
        ∀ s, (s, ['a', '.', 'i', 'n']) ∈ cases.flatMap Case.filled ↔
          s = ⟨['s', 'u', 'b', '/', 'b'], .input⟩ := by
  have hname : (['a'] : Text) ≠ [] ∧ ∀ c ∈ lineEnds, c ∉ (['a'] : Text) :=
    ⟨by simp, by simp [lineEnds]⟩
  have hpath : (here Format.default rfl).pathFor ['a'] .input = .ok ['a', '.', 'i', 'n'] := rfl
  obtain ⟨_, _, s, -, -, -, hfiled, -⟩ := discover_resolved glob_aliasDisk discover_aliasDisk hname
    (by decide) hpath List.mem_cons_self rfl
  obtain rfl : ⟨['s', 'u', 'b', '/', 'b'], .input⟩ = s := (hfiled _).mp List.mem_cons_self
  exact ⟨glob_aliasDisk, _, discover_aliasDisk, hfiled⟩

/-- The input of the test case `a` is a candidate and no backup, but it is a link, so no test case of
that name is discovered. -/
theorem discover_link :
    aliasDisk.tree.at? (aliasDisk.locate ['.']) = some .dir ∧
      (∀ s ∈ splitSlash Format.default, Plain s) ∧
      (here Format.default rfl).pathFor ['a'] .input = .ok ['a', '.', 'i', 'n'] ∧
      ((here Format.default rfl).glob aliasDisk).outcome = .ok [['a', '.', 'i', 'n']] ∧
      isBackup ['a', '.', 'i', 'n'] = false ∧
      ∃ cases, ((here Format.default rfl).discover aliasDisk).outcome = .ok cases ∧
        ∀ c ∈ cases, c.name ≠ ['a'] := by
  refine ⟨rfl, ?_, rfl, glob_aliasDisk, rfl, _, discover_aliasDisk, ?_⟩
  · simp [splitSlash, Format.default, Plain, Path.dot, Path.dotDot]
  · simp

end Locator

end CaseFiles
