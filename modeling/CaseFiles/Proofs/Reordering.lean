import CaseFiles.Association
import CaseFiles.Listing
import CaseFiles.Proofs.Pairing

/-!
# Files in another order

In which order files are listed decides which failure ends a run, and in which order the test cases
come. It does not decide whether there are test cases, nor which files they have. Main statement:
`pair_perm`.
-/

namespace CaseFiles

/-- The files of a test case, by its name. -/
def Case.entry (c : Case) : Text × Text × Option Text := (c.name, c.input, c.output)

/-- The input and the output of the test case of a name. -/
def filesOf (cases : List Case) (name : Text) : Option (Text × Option Text) :=
  (cases.map Case.entry).lookup name

/-- Test cases with names of their own have the same files in any order. -/
theorem filesOf_perm {cases cases' : List Case} (hnames : (cases.map Case.name).Nodup)
    (h : cases.Perm cases') : filesOf cases = filesOf cases' := by
  have hkeys {cases : List Case} (hnames : (cases.map Case.name).Nodup) :
      ((cases.map Case.entry).map Prod.fst).Nodup := by
    rw [List.map_map]
    exact hnames
  funext name
  apply Option.ext
  intro files
  rw [filesOf, filesOf, lookup_eq_some_iff (hkeys hnames),
    lookup_eq_some_iff (hkeys ((h.map Case.name).nodup_iff.mp hnames)),
    (h.map Case.entry).mem_iff]

section

variable {d : Disk} {directory f : Text} {paths paths' : List Text}
  (hf : Format.validate f = .ok ())

include hf

/-- Files that make test cases make the same ones in any order. -/
theorem exists_perm_of_pair (h : paths.Perm paths') {cases : List Case}
    (hcases : (pair d directory f paths).outcome = .ok cases) :
    ∃ cases', (pair d directory f paths').outcome = .ok cases' ∧ cases'.Perm cases ∧
      (cases.map Case.name).Nodup := by
  obtain ⟨slot, hslot, hdistinct, hne, horderly, hin⟩ := exists_slot_of_pair hf hcases
  obtain ⟨gs, hpair, hgs, hin'⟩ := pair_recognized
    (fun p hp => hslot p (h.mem_iff.mpr hp)) ((h.map slot).nodup_iff.mp hdistinct) hf
  have hrows : gs.Perm (cases.map Case.row) := by
    refine hgs.perm horderly fun s => Option.ext fun q => ?_
    rw [hin', hin, h.mem_iff]
  obtain ⟨cases', rfl, hperm⟩ := exists_cases_of_perm hrows
  refine ⟨cases', hpair.trans (toCases_eq_ok_iff.mpr ⟨?_, rfl⟩), hperm, ?_⟩
  · rintro rfl
    exact hne hperm.symm.eq_nil
  · have hnodup := horderly.nodup
    rwa [List.map_map] at hnodup

/-- Whether files make test cases does not depend on the order in which they are listed, and the
test cases that they make are the same up to their order: each name has the same files. -/
theorem pair_perm (h : paths.Perm paths') :
    ((∃ cases, (pair d directory f paths).outcome = .ok cases) ↔
        ∃ cases, (pair d directory f paths').outcome = .ok cases) ∧
      ∀ cases cases', (pair d directory f paths).outcome = .ok cases →
        (pair d directory f paths').outcome = .ok cases' →
          cases.Perm cases' ∧ filesOf cases = filesOf cases' := by
  refine ⟨⟨?_, ?_⟩, fun cases cases' hcases hcases' => ?_⟩
  · rintro ⟨cases, hcases⟩
    obtain ⟨cases', hcases', -⟩ := exists_perm_of_pair hf h hcases
    exact ⟨cases', hcases'⟩
  · rintro ⟨cases, hcases⟩
    obtain ⟨cases', hcases', -⟩ := exists_perm_of_pair hf h.symm hcases
    exact ⟨cases', hcases'⟩
  · obtain ⟨found, hfound, hperm, hnames⟩ := exists_perm_of_pair hf h hcases
    obtain rfl := Except.ok.inj (hfound.symm.trans hcases')
    exact ⟨hperm.symm, filesOf_perm hnames hperm.symm⟩

end

/-- The files of `b`, its output first, with the input of `a` between them. -/
def outputFirst : List Text :=
  [['b', '.', 'o', 'u', 't'], ['a', '.', 'i', 'n'], ['b', '.', 'i', 'n']]

/-- The same files make the same test cases if they are listed from the end. -/
theorem pair_perm_from_end :
    outputFirst.Perm outputFirst.reverse ∧
      ∃ cases, (pair (.standingAt ['/']) ['.'] Format.default outputFirst.reverse).outcome =
          .ok cases ∧
        filesOf cases ['a'] = some (['a', '.', 'i', 'n'], none) ∧
        filesOf cases ['b'] = some (['b', '.', 'i', 'n'], some ['b', '.', 'o', 'u', 't']) := by
  have hperm : outputFirst.Perm outputFirst.reverse := (List.reverse_perm outputFirst).symm
  have hcases : (pair (.standingAt ['/']) ['.'] Format.default outputFirst).outcome =
      .ok [⟨['b'], ['b', '.', 'i', 'n'], some ['b', '.', 'o', 'u', 't']⟩,
        ⟨['a'], ['a', '.', 'i', 'n'], none⟩] := by
    decide +kernel
  obtain ⟨cases, hfound⟩ := (pair_perm rfl hperm).1.mp ⟨_, hcases⟩
  obtain ⟨-, hfiles⟩ := (pair_perm rfl hperm).2 _ _ hcases hfound
  refine ⟨hperm, cases, hfound, ?_, ?_⟩
  · rw [← hfiles]
    rfl
  · rw [← hfiles]
    rfl

end CaseFiles
