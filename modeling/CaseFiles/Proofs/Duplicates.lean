import CaseFiles.Listing
import CaseFiles.Proofs.Pairing

/-!
# Files that are listed twice

A slot is rendered into one path only and a path is recognised for one slot only, so two files are in
each other's way exactly if they are the same file, spelled in two ways or listed twice. Main
statement: `pair_duplicateFile`.
-/

namespace CaseFiles

section

variable {d : Disk} {directory f : Text} {paths : List Text} (hf : Format.validate f = .ok ())

include hf

/-- A file is in another one's way only if it is listed after it and recognised for the same slot. -/
theorem slot_of_stops {n p q : Text} {e : Ext}
    (h : Stops d directory f paths (.duplicateFile n e p q)) :
    [p, q].Sublist paths ∧ recognize d directory f p = .ok (some ⟨n, e⟩) ∧
      recognize d directory f q = .ok (some ⟨n, e⟩) := by
  cases h with
  | fault _ hrec => rcases fault_of_recognize hf hrec with h | h <;> exact nomatch h
  | @taken before after slots _ _ s j hbefore hq hs hp =>
    refine ⟨?_, ?_, hq⟩
    · exact (List.singleton_sublist.mpr (List.mem_of_getElem? hp)).append
        (List.singleton_sublist.mpr List.mem_cons_self)
    · have heach := congrArg (·[j]?) hbefore.each
      simpa [hs, hp] using heach

/-- A file is in another one's way only if it is the same file, listed after it. -/
theorem same_file_of_stops {n p q : Text} {e : Ext}
    (h : Stops d directory f paths (.duplicateFile n e p q)) :
    [p, q].Sublist paths ∧ ∃ file, d.resolve p = .ok file ∧ d.resolve q = .ok file := by
  obtain ⟨hpq, hp, hq⟩ := slot_of_stops hf h
  exact ⟨hpq, exists_file_of_recognize hf hp hq⟩

/-- Files that are all recognised have slots of their own unless one is listed twice. -/
theorem exists_duplicateFile (hall : ∀ p ∈ paths, ∃ s, recognize d directory f p = .ok (some s))
    {p q : Text} (hpq : [p, q].Sublist paths) (hsame : d.resolve p = d.resolve q) :
    ∃ n e p' q', Stops d directory f paths (.duplicateFile n e p' q') := by
  rcases recognized_or_stops d directory f paths with ⟨slots, hslots⟩ | ⟨cause, hstops⟩
  · obtain ⟨slot, hslot, rfl⟩ := hslots.exists_slot
    have hp := hslot p (hpq.mem List.mem_cons_self)
    have hq := hslot q (hpq.mem (List.mem_cons_of_mem p List.mem_cons_self))
    rw [recognize_congr hf hsame, hq] at hp
    have hdistinct := hslots.distinct.sublist (hpq.map slot)
    have heq : slot q = slot p := Option.some.inj (Except.ok.inj hp)
    exact absurd hdistinct (by simp [heq])
  · cases hstops with
    | @fault before after _ p _ _ hrec =>
      obtain ⟨s, hs⟩ := hall p (List.mem_append_right before List.mem_cons_self)
      exact nomatch hrec.symm.trans hs
    | @foreign before after _ p _ hrec =>
      obtain ⟨s, hs⟩ := hall p (List.mem_append_right before List.mem_cons_self)
      exact nomatch hrec.symm.trans hs
    | taken hbefore hrec hs hp => exact ⟨_, _, _, _, .taken hbefore hrec hs hp⟩

/-- The files of the test cases that are made are all different, as paths of the same file are
recognised for the same slot, which has one file. -/
theorem nodup_resolve_of_pair {cases : List Case}
    (h : (pair d directory f paths).outcome = .ok cases) :
    ((cases.flatMap Case.filled).map fun x => d.resolve x.2).Nodup := by
  obtain ⟨slot, hslot, -, -, horderly, hin⟩ := exists_slot_of_pair hf h
  have hnames : (cases.map Case.name).Nodup := by
    have hrows := horderly.nodup
    rwa [List.map_map] at hrows
  have hfilled {s : Slot} {q : Text} (hmem : (s, q) ∈ cases.flatMap Case.filled) :
      q ∈ paths ∧ slot q = s :=
    (hin s q).mp ((mem_flatMap_filled horderly).mp hmem)
  refine List.Nodup.map_on ?_ (nodup_filled hnames)
  rintro ⟨s, q⟩ hq ⟨s', q'⟩ hq' hsame
  obtain ⟨hpath, rfl⟩ := hfilled hq
  obtain ⟨hpath', rfl⟩ := hfilled hq'
  have hslots := hslot q hpath
  rw [recognize_congr hf hsame, hslot q' hpath'] at hslots
  have heq : slot q' = slot q := Option.some.inj (Except.ok.inj hslots)
  have hone := (hin (slot q) q).mpr ⟨hpath, rfl⟩
  rw [(hin (slot q) q').mpr ⟨hpath', heq⟩] at hone
  rw [Option.some.inj hone]

/-- A run ends with two files for one slot only if they are the same file, the first one listed
before the second. If all files are recognised and one is listed twice, it ends so. Hence the files
of the test cases that are made are all different. -/
theorem pair_duplicateFile :
    (∀ n e p q, (pair d directory f paths).outcome = .error (.duplicateFile n e p q) →
        [p, q].Sublist paths ∧ ∃ file, d.resolve p = .ok file ∧ d.resolve q = .ok file) ∧
      ((∀ p ∈ paths, ∃ s, recognize d directory f p = .ok (some s)) →
        ∀ p q, [p, q].Sublist paths → d.resolve p = d.resolve q →
          ∃ n e p' q', (pair d directory f paths).outcome = .error (.duplicateFile n e p' q')) ∧
      ∀ cases, (pair d directory f paths).outcome = .ok cases →
        ((cases.flatMap Case.filled).map fun x => d.resolve x.2).Nodup := by
  refine ⟨fun n e p q h => ?_, fun hall p q hpq hsame => ?_, fun cases h => ?_⟩
  · rcases fault_of_pair hf h with hstops | ⟨_, _, hcause⟩ | hcause
    · exact same_file_of_stops hf hstops
    · exact nomatch hcause
    · exact nomatch hcause
  · obtain ⟨n, e, p', q', hstops⟩ := exists_duplicateFile hf hall hpq hsame
    exact ⟨n, e, p', q', hstops.pair hf⟩
  · exact nodup_resolve_of_pair hf h

end

/-- Two spellings of the input of the test case `a`. -/
def spellings : List Text := [['a', '.', 'i', 'n'], ['.', '/', 'a', '.', 'i', 'n']]

/-- Two spellings of an input are one file, so they are in each other's way. -/
theorem pair_duplicateFile_spellings :
    Format.validate Format.default = .ok () ∧
      (∀ p ∈ spellings,
        ∃ s, recognize (.standingAt ['/']) ['.'] Format.default p = .ok (some s)) ∧
      ∃ n e p q, (pair (.standingAt ['/']) ['.'] Format.default spellings).outcome =
          .error (.duplicateFile n e p q) ∧
        [p, q].Sublist spellings ∧ ∃ file, Disk.resolve (.standingAt ['/']) p = .ok file ∧
          Disk.resolve (.standingAt ['/']) q = .ok file := by
  have hroot : Disk.resolve (.standingAt ['/']) ['.'] = .ok ['/'] := rfl
  have hall : ∀ p ∈ spellings,
      ∃ s, recognize (.standingAt ['/']) ['.'] Format.default p = .ok (some s) := by
    intro p hp
    have hfile : Disk.resolve (.standingAt ['/']) p = .ok ['/', 'a', '.', 'i', 'n'] := by
      rcases List.mem_cons.mp hp with rfl | hp
      · rfl
      · rw [List.mem_singleton.mp hp]
        rfl
    exact ⟨⟨['a'], .input⟩, (recognize_eq_some_iff rfl hroot hfile).mpr
      ⟨⟨by simp, by simp [lineEnds]⟩, _, rfl, rfl⟩⟩
  have hduplicate : ∃ n e p q, (pair (.standingAt ['/']) ['.'] Format.default spellings).outcome =
      .error (.duplicateFile n e p q) :=
    (pair_duplicateFile rfl).2.1 hall _ _ (List.Sublist.refl spellings) rfl
  obtain ⟨n, e, p, q, hout⟩ := hduplicate
  exact ⟨rfl, hall, n, e, p, q, hout, (pair_duplicateFile rfl).1 n e p q hout⟩

end CaseFiles
