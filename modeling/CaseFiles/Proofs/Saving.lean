import CaseFiles.Locator
import CaseFiles.Proofs.Candidacy
import CaseFiles.Proofs.FileTree.Making
import CaseFiles.Proofs.Filing

/-!
# Discovering what has been saved

Test cases are saved by making their files where they belong below an empty directory. Each file is
recognised for the slot that it was made for, so the saved test cases are discovered exactly if the
glob of the format finds all of their files. It does if no segment of the format is misquoted; a
misquoted one makes it look for a quoted ending, which the files need not have. Main statement:
`discover_save`.
-/

namespace CaseFiles

open CaseFiles.Path (Plain isName splitSlash joinSlash)

/-- A test case to be saved: its name, and whether it has an output. -/
structure Sample where
  name : Text
  hasOutput : Bool

/-- The slots that a test case fills. -/
def Sample.slots (x : Sample) : List Slot :=
  ⟨x.name, .input⟩ :: if x.hasOutput then [⟨x.name, .output⟩] else []

theorem Sample.mem_slots {x : Sample} {s : Slot} :
    s ∈ x.slots ↔ s = ⟨x.name, .input⟩ ∨ (x.hasOutput = true ∧ s = ⟨x.name, .output⟩) := by
  unfold slots
  cases x.hasOutput <;> simp

theorem Sample.name_of_mem_slots {x : Sample} {s : Slot} (h : s ∈ x.slots) : s.name = x.name := by
  rcases mem_slots.mp h with rfl | ⟨-, rfl⟩ <;> rfl

/-- What is asked of a slot for its file to be told from others by its path. The name is one line
without slashes. The path that the slot is rendered into is made of proper names, is not that of a
backup, and has no dot in front where the format has a field. -/
structure Slot.Tidy (f : Text) (s : Slot) : Prop where
  name_ne_nil : s.name ≠ []
  slash_not_mem : '/' ∉ s.name
  lineEnds_not_mem : ∀ c ∈ lineEnds, c ∉ s.name
  named {r : Text} : Format.render (Format.caseTable s.name s.ext) f = .ok r →
    ∀ n ∈ splitSlash r, isName n = true
  real {r : Text} : Format.render (Format.caseTable s.name s.ext) f = .ok r → isBackup r = false
  shown : ∀ q ∈ Format.segments (Format.parts f), ∀ key, q.head? = some (.field key) →
    Glob.isHidden (Format.rendered s.name s.ext.text q) = false

namespace Locator

/-- Makes the files of some slots where they belong. -/
def save (loc : Locator) (d : Disk) (slots : List Slot) : Except Error Disk := do
  let paths ← slots.mapM fun s => loc.pathFor s.name s.ext
  return d.addAll (paths.map fun p => ⟨p, .file⟩)

/-- A test case with its files where they belong. -/
def caseOf (loc : Locator) (x : Sample) : Except Error Case := do
  let input ← loc.pathFor x.name .input
  if x.hasOutput then
    let output ← loc.pathFor x.name .output
    return ⟨x.name, input, some output⟩
  else return ⟨x.name, input, none⟩

/-- Test cases can be saved: there are no links on the disk, the directory is there and empty, no two
of the test cases have one name, and their slots are tidy. -/
structure Saveable (loc : Locator) (d : Disk) (samples : List Sample) : Prop where
  linkFree : d.tree.LinkFree
  isDir : d.tree.at? (d.locate loc.directory) = some .dir
  empty : d.tree.children (d.locate loc.directory) = []
  samples_ne_nil : samples ≠ []
  nodup : (samples.map Sample.name).Nodup
  tidy : ∀ x ∈ samples, ∀ s ∈ x.slots, s.Tidy loc.format

/-- A locator discovers exactly the given test cases, in some order. -/
def Discovers (loc : Locator) (d : Disk) (cases : List Case) : Prop :=
  ∃ found, (loc.discover d).outcome = .ok found ∧ found.Perm cases

section

variable (loc : Locator)

/-- What a slot is rendered into. -/
def rendered (s : Slot) : Text := Format.rendered s.name s.ext.text (Format.parts loc.format)

/-- The path of a slot. -/
def path (s : Slot) : Text := Path.join loc.directory (loc.rendered s)

theorem render_eq (s : Slot) :
    Format.render (Format.caseTable s.name s.ext) loc.format = .ok (loc.rendered s) :=
  Format.render_caseTable loc.valid s.name s.ext

theorem pathFor_eq (s : Slot) : loc.pathFor s.name s.ext = .ok (loc.path s) := by
  rw [pathFor, Format.pathFor, render_eq]
  rfl

theorem save_eq (d : Disk) (slots : List Slot) :
    loc.save d slots = .ok (d.addAll ((slots.map loc.path).map fun p => ⟨p, .file⟩)) := by
  have hpaths : (slots.mapM fun s => loc.pathFor s.name s.ext) = .ok (slots.map loc.path) := by
    rw [mapM_eq_ok_iff, List.forall₂_map_right_iff, List.forall₂_same]
    exact fun s _ => loc.pathFor_eq s
  rw [save, hpaths]
  rfl

end

section

variable {loc : Locator} {s : Slot} (hs : s.Tidy loc.format)

include hs

theorem plain_of_mem_rendered : ∀ n ∈ splitSlash (loc.rendered s), Plain n :=
  fun n hn => (Path.isName_iff.mp (hs.named (loc.render_eq s) n hn)).1

theorem locate_path (here : Location) :
    Path.locate here (loc.path s) =
      Path.locate here loc.directory ++ splitSlash (loc.rendered s) :=
  Path.locate_join (plain_of_mem_rendered hs) here

theorem isBackup_path : isBackup (loc.path s) = false := by
  rw [path, Path.isBackup_join loc.directory_ne_nil (plain_of_mem_rendered hs)]
  exact hs.real (loc.render_eq s)

/-- The path of a slot is recognised as its own wherever there are no links. -/
theorem recognize_path {d : Disk} (ht : d.tree.LinkFree)
    (hdir : d.tree.at? (d.locate loc.directory) = some .dir) :
    recognize d loc.directory loc.format (loc.path s) = .ok (some s) := by
  have hsettle : d.settle loc.directory = .ok (d.locate loc.directory) :=
    (Disk.settle_eq_ok_iff_locate ht).mpr
      ⟨fun n hn => (Path.isName_iff.mp (d.tree.isName_of_at? hdir hn)).2.2, rfl⟩
  exact recognize_join loc.valid hsettle ⟨hs.name_ne_nil, hs.lineEnds_not_mem⟩ (loc.render_eq s)
    (hs.named (loc.render_eq s)) fun _ _ _ target => ht _ target

/-- All slots are rendered into paths of the same depth. -/
theorem length_rendered :
    (splitSlash (loc.rendered s)).length = (Format.segments (Format.parts loc.format)).length := by
  rw [rendered, Format.splitSlash_rendered hs.slash_not_mem (s.ext.slash_not_mem_text),
    List.length_map]

end

/-- The disk is one without links on which the files below the directory of a locator are those of
the given slots. -/
structure Holds (loc : Locator) (d : Disk) (slots : List Slot) : Prop where
  linkFree : d.tree.LinkFree
  isDir : d.tree.at? (d.locate loc.directory) = some .dir
  file_iff (l : Location) : d.tree.at? (d.locate loc.directory ++ l) = some .file ↔
    ∃ s ∈ slots, l = splitSlash (loc.rendered s)

section

variable {loc : Locator} {d : Disk} {slots : List Slot}

/-- After saving into an empty directory it holds the files of the slots. -/
theorem holds_save (ht : d.tree.LinkFree)
    (hdir : d.tree.at? (d.locate loc.directory) = some .dir)
    (hempty : d.tree.children (d.locate loc.directory) = [])
    (htidy : ∀ s ∈ slots, s.Tidy loc.format) :
    ∃ d', loc.save d slots = .ok d' ∧ loc.Holds d' slots := by
  have hlevels : (Format.segments (Format.parts loc.format)).length - 1 + 1 =
      (Format.segments (Format.parts loc.format)).length := by
    have hpos := List.length_pos_iff.mpr (Format.segments_ne_nil (Format.parts loc.format))
    omega
  have hway (s : Slot) (hs : s ∈ slots) :
      (d.locate (loc.path s)).drop (d.locate loc.directory).length =
        splitSlash (loc.rendered s) := by
    unfold Disk.locate
    rw [locate_path (htidy s hs), List.drop_left]
  have hpaths (p : Text) (hp : p ∈ slots.map loc.path) :
      d.locate p = d.locate loc.directory ++ (d.locate p).drop (d.locate loc.directory).length ∧
        (∀ n ∈ (d.locate p).drop (d.locate loc.directory).length, isName n = true) ∧
          ((d.locate p).drop (d.locate loc.directory).length).length =
            (Format.segments (Format.parts loc.format)).length - 1 + 1 := by
    obtain ⟨s, hs, rfl⟩ := List.mem_map.mp hp
    rw [hway s hs]
    exact ⟨locate_path (htidy s hs) d.here, (htidy s hs).named (loc.render_eq s),
      (length_rendered (htidy s hs)).trans hlevels.symm⟩
  obtain ⟨hhere, files, hfiles, hlevelled⟩ :=
    Disk.addAll_levelled (FileTree.levelled_of_empty ht hdir hempty _) hpaths
  refine ⟨_, loc.save_eq d slots, hlevelled.linkFree, ?_, fun l => ?_⟩
  · rw [Disk.locate, hhere]
    exact hlevelled.isDir
  · rw [Disk.locate, hhere]
    refine (hlevelled.file_iff l).trans ((hfiles l).trans ?_)
    constructor
    · rintro (h | ⟨p, hp, rfl⟩)
      · cases h
      · obtain ⟨s, hs, rfl⟩ := List.mem_map.mp hp
        exact ⟨s, hs, hway s hs⟩
    · rintro ⟨s, hs, rfl⟩
      exact Or.inr ⟨_, List.mem_map_of_mem hs, (hway s hs).symm⟩

end

/-- What is discovered comes of pairing the candidates without the backups. -/
theorem outcome_discover {loc : Locator} {d : Disk} {found : List Text}
    (hglob : (loc.glob d).outcome = .ok found) :
    (loc.discover d).outcome =
      (pair d loc.directory loc.format (found.filter (!isBackup ·))).outcome := by
  rw [discover, Traced.bind_ok hglob, relate, dropBackups, Traced.bind_ok rfl]

/-- The glob of the format finds the file of a slot. -/
def Finds (loc : Locator) (s : Slot) : Prop :=
  Glob.Fits false (Format.globSegments loc.format) (splitSlash (loc.rendered s))

/-- A locator finds a tidy slot if no segment of its format is misquoted. -/
theorem finds_of_not_misquoted {loc : Locator} {s : Slot} (hs : s.Tidy loc.format)
    (h : ∀ q ∈ Format.segments (Format.parts loc.format), ¬ Format.Misquoted q) : loc.Finds s :=
  Format.fits_rendered hs.slash_not_mem (s.ext.slash_not_mem_text) h hs.shown

/-- It does not find one without a backslash in its path if a segment is misquoted. -/
theorem not_finds_of_misquoted {loc : Locator} {s : Slot} {q : List Part}
    (hq : q ∈ Format.segments (Format.parts loc.format)) (h : Format.Misquoted q)
    (hplain : '\\' ∉ loc.rendered s) : ¬ loc.Finds s := by
  refine Format.not_fits_of_misquoted hq h fun n hn hbackslash => hplain ?_
  exact (Path.mem_of_mem_splitSlash hn hbackslash).1

section

variable {loc : Locator} {d : Disk} {slots : List Slot} (h : loc.Holds d slots)
  (htidy : ∀ s ∈ slots, s.Tidy loc.format)

include h htidy

/-- No two slots have one path. -/
theorem path_injOn {s s' : Slot} (hs : s ∈ slots) (hs' : s' ∈ slots)
    (hpath : loc.path s = loc.path s') : s = s' := by
  have hrec := recognize_path (htidy s hs) h.linkFree h.isDir
  rw [hpath, recognize_path (htidy s' hs') h.linkFree h.isDir] at hrec
  exact (Option.some.inj (Except.ok.inj hrec)).symm

/-- The candidates are the paths of the slots that the glob finds. -/
theorem glob_holds (hne : slots ≠ []) :
    ∃ found, (loc.glob d).outcome = .ok found ∧ found.Nodup ∧
      ∀ p, p ∈ found ↔ ∃ s ∈ slots, loc.Finds s ∧ p = loc.path s := by
  obtain ⟨first, hfirst⟩ := List.exists_mem_of_ne_nil slots hne
  have hplain := plain_of_mem_rendered (htidy first hfirst)
  have hslash := (htidy first hfirst).slash_not_mem
  have hext := first.ext.slash_not_mem_text
  have hsearch {r : Text} :
      r ∈ Glob.search d.tree (d.locate loc.directory) (Format.globOf (Format.parts loc.format)) ↔
        ∃ s ∈ slots, loc.Finds s ∧ r = loc.rendered s := by
    rw [Glob.mem_search_iff h.linkFree h.isDir (Format.plain_globPart hslash hext hplain)
      (Format.plain_of_literal_mem hslash hext hplain)]
    constructor
    · rintro ⟨ns, rfl, hfile, hfits⟩
      obtain ⟨s, hs, rfl⟩ := (h.file_iff ns).mp hfile
      exact ⟨s, hs, hfits, Path.joinSlash_splitSlash _⟩
    · rintro ⟨s, hs, hfits, rfl⟩
      exact ⟨_, (Path.joinSlash_splitSlash _).symm, (h.file_iff _).mpr ⟨s, hs, rfl⟩, hfits⟩
  have hglob : (loc.glob d).outcome =
      .ok ((Glob.search d.tree (d.locate loc.directory)
        (Format.globOf (Format.parts loc.format))).map (Path.join loc.directory)) :=
    candidates_eq loc.valid
  refine ⟨_, hglob, ?_, fun p => ?_⟩
  · refine List.Nodup.map_on (fun r hr r' hr' heq => ?_) (Glob.nodup_search _ _)
    obtain ⟨s, hs, -, rfl⟩ := hsearch.mp hr
    obtain ⟨s', hs', -, rfl⟩ := hsearch.mp hr'
    rw [path_injOn h htidy hs hs' heq]
  · rw [List.mem_map]
    constructor
    · rintro ⟨r, hr, rfl⟩
      obtain ⟨s, hs, hfinds, rfl⟩ := hsearch.mp hr
      exact ⟨s, hs, hfinds, rfl⟩
    · rintro ⟨s, hs, hfinds, rfl⟩
      exact ⟨_, hsearch.mpr ⟨s, hs, hfinds, rfl⟩, rfl⟩

/-- What is discovered is decided by rows in which each slot that the glob finds has its path. -/
theorem discover_holds (hne : slots ≠ []) :
    ∃ gs, (loc.discover d).outcome = toCases loc.directory loc.format gs ∧ Orderly gs ∧
      ∀ s q, inSlot gs s = some q ↔ s ∈ slots ∧ loc.Finds s ∧ q = loc.path s := by
  obtain ⟨found, hglob, hnodup, hmem⟩ := glob_holds h htidy hne
  have hreal : found.filter (!isBackup ·) = found := by
    apply List.filter_eq_self.mpr
    intro p hp
    obtain ⟨s, hs, -, rfl⟩ := (hmem p).mp hp
    rw [isBackup_path (htidy s hs)]
    rfl
  have hrec {s : Slot} (hs : s ∈ slots) :
      recognize d loc.directory loc.format (loc.path s) = .ok (some s) :=
    recognize_path (htidy s hs) h.linkFree h.isDir
  obtain ⟨slot, hrecognized⟩ : ∃ slot : Text → Slot, ∀ p ∈ found,
      recognize d loc.directory loc.format p = .ok (some (slot p)) := by
    apply exists_slot_of_recognize
    intro p hp
    obtain ⟨s, hs, -, rfl⟩ := (hmem p).mp hp
    exact ⟨s, hrec hs⟩
  have hslot {s : Slot} (hs : s ∈ slots) (hfinds : loc.Finds s) : slot (loc.path s) = s := by
    have hpath := hrecognized _ ((hmem _).mpr ⟨s, hs, hfinds, rfl⟩)
    rw [hrec hs] at hpath
    exact (Option.some.inj (Except.ok.inj hpath)).symm
  have hdistinct : (found.map slot).Nodup := by
    refine List.Nodup.map_on (fun p hp p' hp' heq => ?_) hnodup
    obtain ⟨s, hs, hfinds, rfl⟩ := (hmem p).mp hp
    obtain ⟨s', hs', hfinds', rfl⟩ := (hmem p').mp hp'
    rw [hslot hs hfinds, hslot hs' hfinds'] at heq
    rw [heq]
  obtain ⟨gs, hpair, horderly, hin⟩ := pair_recognized hrecognized hdistinct loc.valid
  refine ⟨gs, ?_, horderly, fun s q => ?_⟩
  · rw [outcome_discover hglob, hreal]
    exact hpair
  · rw [hin, hmem]
    constructor
    · rintro ⟨⟨s', hs', hfinds, rfl⟩, hs⟩
      rw [hslot hs' hfinds] at hs
      subst hs
      exact ⟨hs', hfinds, rfl⟩
    · rintro ⟨hs, hfinds, rfl⟩
      exact ⟨⟨s, hs, hfinds, rfl⟩, hslot hs hfinds⟩

end

/-- Where the glob finds no slot there are no test cases. -/
theorem discover_none {loc : Locator} {d : Disk} {slots : List Slot} (h : loc.Holds d slots)
    (htidy : ∀ s ∈ slots, s.Tidy loc.format) (hne : slots ≠ [])
    (hnone : ∀ s ∈ slots, ¬ loc.Finds s) :
    (loc.discover d).outcome = .error (.noCases loc.directory loc.format) := by
  obtain ⟨gs, hdiscover, hgs, hin⟩ := discover_holds h htidy hne
  have hnil : gs = [] := by
    apply List.eq_nil_iff_forall_not_mem.mpr
    intro g hg
    obtain ⟨e, q, hq⟩ := hgs.filled g hg
    rw [← hgs.inSlot_eq hg, hin] at hq
    exact hnone _ hq.1 hq.2.1
  rw [hdiscover, hnil]
  rfl

/-- The test case of a sample. -/
def caseAt (loc : Locator) (x : Sample) : Case :=
  ⟨x.name, loc.path ⟨x.name, .input⟩,
    if x.hasOutput then some (loc.path ⟨x.name, .output⟩) else none⟩

theorem caseOf_eq (loc : Locator) (x : Sample) : loc.caseOf x = .ok (loc.caseAt x) := by
  have hpath (e : Ext) : loc.pathFor x.name e = .ok (loc.path ⟨x.name, e⟩) :=
    loc.pathFor_eq ⟨x.name, e⟩
  unfold caseOf caseAt
  rw [hpath .input, hpath .output]
  cases x.hasOutput <;> rfl

/-- The row of a test case has the paths of the slots that it fills. -/
theorem get_row_caseAt (loc : Locator) (x : Sample) (e : Ext) :
    (loc.caseAt x).row.get e =
      if (⟨x.name, e⟩ : Slot) ∈ x.slots then some (loc.path ⟨x.name, e⟩) else none := by
  unfold caseAt
  cases e <;> cases hout : x.hasOutput <;> simp [Sample.mem_slots, hout, Case.row, Filed.get]

section

variable {loc : Locator} {samples : List Sample} {slots : List Slot}
  (hnodup : (samples.map Sample.name).Nodup)
  (hslots : ∀ s, s ∈ slots ↔ ∃ x ∈ samples, s ∈ x.slots)

include hnodup hslots

/-- Rows in which each slot has its path are those of the test cases. -/
theorem rows_perm {gs : List Filed} (hgs : Orderly gs)
    (hin : ∀ s q, inSlot gs s = some q ↔ s ∈ slots ∧ q = loc.path s) :
    gs.Perm (samples.map fun x => (loc.caseAt x).row) := by
  have hrows : Orderly (samples.map fun x => (loc.caseAt x).row) := by
    constructor
    · rw [List.map_map]
      exact hnodup
    · intro g hg
      obtain ⟨x, -, rfl⟩ := List.mem_map.mp hg
      exact ⟨.input, _, rfl⟩
  refine hgs.perm hrows fun s => Option.ext fun q => ?_
  rw [hin, hrows.inSlot_eq_some_iff]
  constructor
  · rintro ⟨hs, rfl⟩
    obtain ⟨x, hx, hmem⟩ := (hslots s).mp hs
    have hslot : (⟨x.name, s.ext⟩ : Slot) = s := by rw [← Sample.name_of_mem_slots hmem]
    refine ⟨_, List.mem_map_of_mem hx, (Sample.name_of_mem_slots hmem).symm, ?_⟩
    rw [get_row_caseAt, hslot, if_pos hmem]
  · rintro ⟨_, hg, hname, hget⟩
    obtain ⟨x, hx, rfl⟩ := List.mem_map.mp hg
    have hslot : (⟨x.name, s.ext⟩ : Slot) = s := congrArg (Slot.mk · s.ext) hname
    rw [get_row_caseAt, hslot] at hget
    split at hget
    next hmem => exact ⟨(hslots s).mpr ⟨x, hx, hmem⟩, (Option.some.inj hget).symm⟩
    next => cases hget

/-- Rows of what is found make exactly the test cases of the samples if all slots are found, in the
order in which their names were. -/
theorem toCases_perm_iff {directory f : Text} {gs : List Filed} (hne : samples ≠ [])
    (hgs : Orderly gs)
    (hin : ∀ s q, inSlot gs s = some q ↔ s ∈ slots ∧ loc.Finds s ∧ q = loc.path s) :
    (∃ found, toCases directory f gs = .ok found ∧ found.Perm (samples.map loc.caseAt)) ↔
      ∀ s ∈ slots, loc.Finds s := by
  constructor
  · rintro ⟨found, hcases, hperm⟩ s hs
    obtain ⟨x, hx, hmem⟩ := (hslots s).mp hs
    obtain ⟨-, rfl⟩ := toCases_eq_ok_iff.mp hcases
    have hrow : (loc.caseAt x).row ∈ found.map Case.row :=
      List.mem_map_of_mem (hperm.mem_iff.mpr (List.mem_map_of_mem hx))
    have hslot : s = ⟨x.name, s.ext⟩ := by rw [← Sample.name_of_mem_slots hmem]
    have hget := hgs.inSlot_eq hrow s.ext
    rw [get_row_caseAt, ← hslot, if_pos hmem] at hget
    have hname : (⟨(loc.caseAt x).row.name, s.ext⟩ : Slot) = s := hslot.symm
    rw [hname] at hget
    exact ((hin s _).mp hget).2.1
  · intro hfinds
    have hperm : gs.Perm (samples.map fun x => (loc.caseAt x).row) := by
      apply rows_perm hnodup hslots hgs
      intro s q
      rw [hin]
      exact ⟨fun h => ⟨h.1, h.2.2⟩, fun h => ⟨h.1, hfinds s h.1, h.2⟩⟩
    have hrows : gs.Perm ((samples.map loc.caseAt).map Case.row) := by
      rwa [List.map_map]
    obtain ⟨found, rfl, hcases⟩ := exists_cases_of_perm hrows
    refine ⟨found, toCases_eq_ok_iff.mpr ⟨?_, rfl⟩, hcases⟩
    rintro rfl
    exact hne (List.map_eq_nil_iff.mp hcases.symm.eq_nil)

end

/-- Test cases that have been saved are discovered, with their files where they belong, exactly if all
slots are rendered into paths that fit the glob of the format. They do if no segment of the format
is misquoted; if one is, a path without a backslash does not. -/
theorem discover_save {loc : Locator} {d : Disk} {samples : List Sample}
    (h : loc.Saveable d samples) {slots : List Slot}
    (hslots : slots.Perm (samples.flatMap Sample.slots)) :
    ∃ d' cases, loc.save d slots = .ok d' ∧ samples.mapM loc.caseOf = .ok cases ∧
      (loc.Discovers d' cases ↔ ∀ s ∈ slots, ∀ r,
        Format.render (Format.caseTable s.name s.ext) loc.format = .ok r →
          Glob.Fits false (Format.globSegments loc.format) (splitSlash r)) ∧
      ((∀ q ∈ Format.segments (Format.parts loc.format), ¬ Format.Misquoted q) →
        loc.Discovers d' cases) ∧
      ((∃ q ∈ Format.segments (Format.parts loc.format), Format.Misquoted q) →
        (∃ s ∈ slots, ∀ r, Format.render (Format.caseTable s.name s.ext) loc.format = .ok r →
          '\\' ∉ r) → ¬ loc.Discovers d' cases) := by
  have hmem (s : Slot) : s ∈ slots ↔ ∃ x ∈ samples, s ∈ x.slots := by
    rw [hslots.mem_iff, List.mem_flatMap]
  have htidy : ∀ s ∈ slots, s.Tidy loc.format := by
    intro s hs
    obtain ⟨x, hx, hsx⟩ := (hmem s).mp hs
    exact h.tidy x hx s hsx
  have hne : slots ≠ [] := by
    obtain ⟨x, hx⟩ := List.exists_mem_of_ne_nil samples h.samples_ne_nil
    exact List.ne_nil_of_mem ((hmem _).mpr ⟨x, hx, List.mem_cons_self⟩)
  obtain ⟨d', hsave, hholds⟩ := holds_save h.linkFree h.isDir h.empty htidy
  obtain ⟨gs, hdiscover, hgs, hin⟩ := discover_holds hholds htidy hne
  have hcases : samples.mapM loc.caseOf = .ok (samples.map loc.caseAt) := by
    rw [mapM_eq_ok_iff, List.forall₂_map_right_iff, List.forall₂_same]
    exact fun x _ => loc.caseOf_eq x
  have hfinds : loc.Discovers d' (samples.map loc.caseAt) ↔ ∀ s ∈ slots, loc.Finds s := by
    unfold Discovers
    rw [hdiscover]
    exact toCases_perm_iff h.nodup hmem h.samples_ne_nil hgs hin
  refine ⟨d', _, hsave, hcases, hfinds.trans ?_, fun hquoted => hfinds.mpr ?_, ?_⟩
  · apply forall₂_congr
    intro s _
    constructor
    · intro hs r hr
      rw [render_eq, Except.ok.injEq] at hr
      exact hr ▸ hs
    · intro hs
      exact hs _ (loc.render_eq s)
  · exact fun s hs => finds_of_not_misquoted (htidy s hs) hquoted
  · rintro ⟨q, hq, hmisquoted⟩ ⟨s, hs, hplain⟩ hdiscovers
    exact not_finds_of_misquoted hq hmisquoted (hplain _ (loc.render_eq s))
      (hfinds.mp hdiscovers s hs)

/-- The locator of a format for where the program stands. -/
def here (f : Text) (hf : Format.validate f = .ok ()) : Locator :=
  ⟨['.'], f, List.cons_ne_nil _ _, hf⟩

/-- One test case can be saved on an empty disk if its slots are tidy. -/
theorem saveable_one {f : Text} (hf : Format.validate f = .ok ()) {x : Sample}
    (htidy : ∀ s ∈ x.slots, s.Tidy f) : (here f hf).Saveable (.bare [] (by simp)) [x] := by
  refine ⟨FileTree.linkFree_of_linkCount rfl, rfl, rfl, List.cons_ne_nil _ _,
    List.nodup_singleton _, fun y hy => ?_⟩
  rw [List.mem_singleton.mp hy]
  exact htidy

/-- Both files of a test case are saved with the default format and discovered. -/
theorem discover_save_default :
    (here Format.default rfl).Saveable (.bare [] (by simp)) [⟨['a'], true⟩] ∧
      ∃ d', (here Format.default rfl).save (.bare [] (by simp))
          [⟨['a'], .output⟩, ⟨['a'], .input⟩] = .ok d' ∧
        (here Format.default rfl).Discovers d'
          [⟨['a'], ['a', '.', 'i', 'n'], some ['a', '.', 'o', 'u', 't']⟩] := by
  have hsegments : Format.segments (Format.parts Format.default) =
      [[.field 's', .text '.', .field 'e']] := rfl
  have htidy (e : Ext) : Slot.Tidy Format.default ⟨['a'], e⟩ := by
    refine ⟨List.cons_ne_nil _ _, by simp, by simp [lineEnds], fun {r} hr => ?_, fun {r} hr => ?_,
      fun q hq key _ => ?_⟩
    · cases e <;> obtain rfl := Except.ok.inj hr <;> decide
    · cases e <;> obtain rfl := Except.ok.inj hr <;> decide
    · rw [hsegments, List.mem_singleton] at hq
      rw [hq]
      rfl
  have hsaveable : (here Format.default rfl).Saveable (.bare [] (by simp)) [⟨['a'], true⟩] := by
    apply saveable_one rfl
    intro s hs
    rcases Sample.mem_slots.mp hs with rfl | ⟨-, rfl⟩ <;> exact htidy _
  obtain ⟨d', cases, hsave, hcases, -, hdiscovers, -⟩ := discover_save hsaveable
    (List.Perm.swap (⟨['a'], .input⟩ : Slot) ⟨['a'], .output⟩ [])
  obtain rfl := Except.ok.inj hcases
  refine ⟨hsaveable, d', hsave, hdiscovers fun q hq => ?_⟩
  apply Format.not_misquoted_of_plain
  intro c hc
  have hq' : q = [.field 's', .text '.', .field 'e'] := List.mem_singleton.mp hq
  rw [hq'] at hc
  obtain rfl : c = '.' := by simpa using hc
  decide

/-- A test case `a` that has been saved as `a)/in` is not discovered. -/
theorem discover_misquoted :
    (here ['%', 's', ')', '/', '%', 'e'] rfl).Saveable (.bare [] (by simp)) [⟨['a'], false⟩] ∧
      ∃ d', (here ['%', 's', ')', '/', '%', 'e'] rfl).save (.bare [] (by simp))
          [⟨['a'], .input⟩] = .ok d' ∧
        ((here ['%', 's', ')', '/', '%', 'e'] rfl).discover d').outcome =
          .error (.noCases ['.'] ['%', 's', ')', '/', '%', 'e']) := by
  have hsegments : Format.segments (Format.parts ['%', 's', ')', '/', '%', 'e']) =
      [[.field 's', .text ')'], [.field 'e']] := rfl
  have htidy : Slot.Tidy ['%', 's', ')', '/', '%', 'e'] ⟨['a'], .input⟩ := by
    refine ⟨List.cons_ne_nil _ _, by simp, by simp [lineEnds], fun {r} hr => ?_, fun {r} hr => ?_,
      fun q hq key _ => ?_⟩
    · obtain rfl := Except.ok.inj hr
      decide
    · obtain rfl := Except.ok.inj hr
      decide
    · rw [hsegments] at hq
      rcases List.mem_cons.mp hq with rfl | hq
      · rfl
      · rw [List.mem_singleton.mp hq]
        rfl
  have hmisquoted : Format.Misquoted [.field 's', .text ')'] :=
    ⟨['s'], [')'], List.cons_ne_nil _ _, rfl, by simp [Glob.unfit], ')', by simp, by decide⟩
  have hslots : ∀ s ∈ [(⟨['a'], .input⟩ : Slot)], s.Tidy ['%', 's', ')', '/', '%', 'e'] :=
    fun s hs => List.mem_singleton.mp hs ▸ htidy
  have hsaveable := saveable_one rfl (x := ⟨['a'], false⟩) hslots
  obtain ⟨d', hsave, hholds⟩ :=
    holds_save hsaveable.linkFree hsaveable.isDir hsaveable.empty hslots
  refine ⟨hsaveable, d', hsave, discover_none hholds hslots (List.cons_ne_nil _ _) fun s hs => ?_⟩
  rw [List.mem_singleton.mp hs]
  apply not_finds_of_misquoted (List.mem_cons_self : _ ∈ [_, _]) hmisquoted
  decide

end Locator

end CaseFiles
