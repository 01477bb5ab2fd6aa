import CaseFiles.Listing
import CaseFiles.Locator
import CaseFiles.Proofs.Candidacy
import CaseFiles.Proofs.Pairing

/-!
# What a reporter is told

A run tells of each file that is left out, then of each file that finds its place, up to the first
one that does not, and then how it has ended. Telling decides nothing: a run that tells nothing
comes to the same. If there are test cases, then each file has been told of as left out or is in one
of them. Main statement: `relate_log`.
-/

namespace CaseFiles

namespace Traced

variable {α β γ : Type}

/-- What a reporter is given: the level and the wording of each event. -/
def log (x : Traced α) : List (Level × String) := x.events.map fun e => (e.level, e.message)

/-- In which order a sequence of runs is put together does not matter. -/
theorem bind_assoc (x : Traced α) (f : α → Traced β) (g : β → Traced γ) :
    (x.bind f).bind g = x.bind fun a => (f a).bind g := by
  cases hx : x.outcome with
  | error cause => rw [bind_error hx, bind_error hx, bind_error rfl]
  | ok a =>
    rw [bind_ok hx, bind_ok hx]
    cases hf : (f a).outcome with
    | error cause => rw [bind_error rfl, bind_error hf]
    | ok b => rw [bind_ok rfl, bind_ok hf, List.append_assoc]

end Traced

/-- Files all paths, in order, and tells nothing. -/
def fileQuietly (d : Disk) (directory f : Text) (gs : List Filed) :
    List Text → Except Error (List Filed)
  | [] => .ok gs
  | p :: ps =>
    match recognize d directory f p with
    | .error cause => .error cause
    | .ok none => .error (.unrecognizedFile p f)
    | .ok (some s) =>
      match inSlot gs s with
      | some q => .error (.duplicateFile s.name s.ext q p)
      | none => fileQuietly d directory f (fileIn s p gs) ps

/-- Pairs the files at the given paths, backup and hidden ones left out, and tells nothing. -/
def Locator.relateQuietly (loc : Locator) (d : Disk) (paths : List Text) :
    Except Error (List Case) := do
  Format.validate loc.format
  let gs ← fileQuietly d loc.directory loc.format [] (paths.filter (!isBackup ·))
  toCases loc.directory loc.format gs

section

variable {d : Disk} {directory f : Text} {paths : List Text} {slots : List Slot}

theorem outcome_fileAll (gs : List Filed) (paths : List Text) :
    (fileAll d directory f gs paths).outcome = fileQuietly d directory f gs paths := by
  induction paths generalizing gs with
  | nil => rfl
  | cons p ps ih =>
    rw [fileAll, fileQuietly]
    cases recognize d directory f p with
    | error cause => rfl
    | ok found =>
      cases found with
      | none => rfl
      | some s =>
        cases hs : inSlot gs s with
        | some q => simp only [hs]; rfl
        | none =>
          simp only [hs]
          rw [Traced.bind_ok rfl]
          exact ih _

/-- Files are filed after those before them. -/
theorem fileAll_append_eq_bind (gs : List Filed) (before after : List Text) :
    fileAll d directory f gs (before ++ after) =
      (fileAll d directory f gs before).bind fun gs' => fileAll d directory f gs' after := by
  induction before generalizing gs with
  | nil => rfl
  | cons p before ih =>
    rw [List.cons_append, fileAll, fileAll]
    cases recognize d directory f p with
    | error cause => rfl
    | ok found =>
      cases found with
      | none => rfl
      | some s =>
        cases hs : inSlot gs s with
        | some q => simp only [hs]; rfl
        | none =>
          simp only [hs, ih]
          exact (Traced.bind_assoc _ _ _).symm

/-- The events about files that have found their places. -/
def filedEvents (paths : List Text) (slots : List Slot) : List Event :=
  (paths.zip slots).map fun (p, s) => .filed p s.ext s.name

/-- Filing that succeeds tells of each file. -/
theorem events_fileAll {slot : Text → Slot}
    (hslot : ∀ p ∈ paths, recognize d directory f p = .ok (some (slot p))) {gs gs' : List Filed}
    (h : (fileAll d directory f gs paths).outcome = .ok gs') :
    (fileAll d directory f gs paths).events = filedEvents paths (paths.map slot) := by
  induction paths generalizing gs with
  | nil => rfl
  | cons p ps ih =>
    rw [fileAll, hslot p List.mem_cons_self] at h ⊢
    cases hs : inSlot gs (slot p) with
    | some q =>
      simp only [hs] at h
      cases h
    | none =>
      simp only [hs] at h ⊢
      rw [Traced.bind_ok rfl] at h ⊢
      rw [ih (fun q hq => hslot q (List.mem_cons_of_mem p hq)) h]
      rfl

theorem Recognized.events_fileAll (h : Recognized d directory f paths slots) :
    (CaseFiles.fileAll d directory f [] paths).events = filedEvents paths slots := by
  obtain ⟨gs, hout, -⟩ := h.fileAll
  obtain ⟨slot, hslot, rfl⟩ := h.exists_slot
  exact CaseFiles.events_fileAll hslot hout

/-- A file has no slot of its own beside the given ones. -/
def Misplaced (d : Disk) (directory f : Text) (slots : List Slot) (p : Text) : Prop :=
  (∃ cause, recognize d directory f p = .error cause) ∨ recognize d directory f p = .ok none ∨
    ∃ s ∈ slots, recognize d directory f p = .ok (some s)

/-- The failures that are told before they end a run. -/
def Error.told : Error → Bool
  | unrecognizedFile _ _ | danglingOutput _ _ | noCases _ _ => true
  | _ => false

/-- What is told when a run ends. -/
def closing : Except Error (List Case) → List Event
  | .ok cases => [.counted cases.length]
  | .error cause => if cause.told then [.failed cause] else []

section

variable (hf : Format.validate f = .ok ())

include hf

omit hf in
/-- Files with slots of their own are told of before the run goes on to the others. -/
theorem Recognized.exists_events_fileAll (h : Recognized d directory f paths slots)
    (more : List Text) :
    ∃ gs, (∀ s q, inSlot gs s = some q ↔ (s, q) ∈ slots.zip paths) ∧
      (CaseFiles.fileAll d directory f [] (paths ++ more)).events =
        filedEvents paths slots ++ (CaseFiles.fileAll d directory f gs more).events := by
  obtain ⟨gs, hout, -, -, hin⟩ := h.fileAll
  refine ⟨gs, hin, ?_⟩
  rw [fileAll_append_eq_bind, Traced.bind_ok hout, h.events_fileAll]

/-- The first file without a slot of its own comes after files that are told of, and ends the run.
-/
theorem Stops.events_fileAll {cause : Error} (h : Stops d directory f paths cause) :
    ∃ before p after slots, paths = before ++ p :: after ∧
      Recognized d directory f before slots ∧ Misplaced d directory f slots p ∧
      (CaseFiles.fileAll d directory f [] paths).events =
        filedEvents before slots ++ closing (.error cause) := by
  cases h with
  | @fault before after slots p _ hbefore hp =>
    obtain ⟨gs, -, hevents⟩ := hbefore.exists_events_fileAll (p :: after)
    refine ⟨before, p, after, slots, rfl, hbefore, Or.inl ⟨cause, hp⟩, ?_⟩
    rw [hevents, CaseFiles.fileAll, hp]
    rcases fault_of_recognize hf hp with rfl | rfl <;> rfl
  | @foreign before after slots p hbefore hp =>
    obtain ⟨gs, -, hevents⟩ := hbefore.exists_events_fileAll (p :: after)
    refine ⟨before, p, after, slots, rfl, hbefore, Or.inr (Or.inl hp), ?_⟩
    rw [hevents, CaseFiles.fileAll, hp]
    rfl
  | @taken before after slots p q s j hbefore hp hs hq =>
    obtain ⟨gs, hin, hevents⟩ := hbefore.exists_events_fileAll (p :: after)
    refine ⟨before, p, after, slots, rfl, hbefore,
      Or.inr (Or.inr ⟨s, List.mem_of_getElem? hs, hp⟩), ?_⟩
    have hmem : (s, q) ∈ slots.zip before :=
      List.mem_iff_getElem?.mpr ⟨j, List.getElem?_zip_eq_some.mpr ⟨hs, hq⟩⟩
    rw [hevents, CaseFiles.fileAll, hp]
    simp only [(hin s q).mpr hmem]
    rfl

/-- Pairing tells of each file up to the first one without a slot of its own, and then how the run
has ended. -/
theorem events_pair :
    ∃ filed rest slots, paths = filed ++ rest ∧ Recognized d directory f filed slots ∧
      (∀ p ∈ rest.head?, Misplaced d directory f slots p) ∧
      (pair d directory f paths).events =
        filedEvents filed slots ++ closing (pair d directory f paths).outcome := by
  rcases recognized_or_stops d directory f paths with ⟨slots, h⟩ | ⟨cause, h⟩
  · obtain ⟨gs, hout, -⟩ := h.fileAll
    refine ⟨paths, [], slots, (List.append_nil paths).symm, h, by simp, ?_⟩
    rw [pair, hf, Traced.bind_ok rfl, Traced.bind_ok hout]
    cases hcases : toCases directory f gs with
    | ok cases => rw [h.events_fileAll]; rfl
    | error cause =>
      rw [h.events_fileAll]
      rcases fault_of_toCases hcases with ⟨n, q, rfl⟩ | rfl <;> rfl
  · obtain ⟨before, p, after, slots, rfl, hbefore, hp, hevents⟩ := h.events_fileAll hf
    refine ⟨before, p :: after, slots, rfl, hbefore, fun q hq => ?_, ?_⟩
    · obtain rfl := Option.some.inj hq
      exact hp
    · rw [h.pair hf, ← hevents, pair, hf, Traced.bind_ok rfl, Traced.bind_error h.fileAll]
      rfl

end

end

namespace Locator

variable (loc : Locator) (d : Disk)

/-- A run tells of the files that are left out, and then pairs the other ones. -/
theorem relate_eq (paths : List Text) :
    loc.relate d paths =
      ⟨(paths.filter isBackup).map .ignored ++
          (pair d loc.directory loc.format (paths.filter (!isBackup ·))).events,
        (pair d loc.directory loc.format (paths.filter (!isBackup ·))).outcome⟩ := rfl

/-- A run that tells nothing comes to the same. -/
theorem outcome_relate (paths : List Text) :
    (loc.relate d paths).outcome = loc.relateQuietly d paths := by
  rw [relate_eq, pair, relateQuietly, loc.valid, Traced.bind_ok rfl, ← outcome_fileAll]
  cases h : (fileAll d loc.directory loc.format [] (paths.filter (!isBackup ·))).outcome with
  | error cause => rw [Traced.bind_error h]; rfl
  | ok gs =>
    rw [Traced.bind_ok h]
    cases hcases : toCases loc.directory loc.format gs <;> exact hcases.symm

/-- The failures that end a run untold are those of the disk and a second file in one slot. -/
theorem cause_of_not_told {paths : List Text} {cause : Error}
    (h : (loc.relate d paths).outcome = .error cause) (htold : cause.told = false) :
    (∃ n e p q, cause = .duplicateFile n e p q) ∨ cause = .linkLoop ∨ cause = .nulInPath := by
  rw [relate_eq] at h
  generalize paths.filter (!isBackup ·) = kept at h
  rcases fault_of_pair loc.valid h with hstops | ⟨n, q, rfl⟩ | rfl
  · cases hstops with
    | fault _ hp => exact Or.inr (fault_of_recognize loc.valid hp).symm
    | foreign _ _ => cases htold
    | taken _ _ _ _ => exact Or.inl ⟨_, _, _, _, rfl⟩
  · cases htold
  · cases htold

/-- Files that are left out decide nothing. -/
theorem outcome_relate_filter (paths : List Text) :
    (loc.relate d (paths.filter (!isBackup ·))).outcome = (loc.relate d paths).outcome := by
  have hkept : (paths.filter (!isBackup ·)).filter (!isBackup ·) = paths.filter (!isBackup ·) :=
    List.filter_eq_self.mpr fun p hp => (List.mem_filter.mp hp).2
  rw [outcome_relate, outcome_relate, relateQuietly, relateQuietly, hkept]

/-- If there are test cases, each file is left out or is in one of them. -/
theorem perm_of_relate {paths : List Text} {cases : List Case}
    (h : (loc.relate d paths).outcome = .ok cases) :
    (paths.filter isBackup ++ (cases.flatMap Case.filled).map Prod.snd).Perm paths := by
  rw [relate_eq] at h
  obtain ⟨slots, hslots, hassembled⟩ := exists_assembled_of_pair loc.valid h
  have hkept := hassembled.files.map Prod.snd
  rw [List.map_snd_zip (Nat.le_of_eq hslots.length_eq)] at hkept
  exact (hkept.append_left _).trans (List.filter_append_perm isBackup paths)

/-- A run tells of the files that are left out, of the other ones up to the first that has no slot
of its own, and of its end, unless this is a failure of the disk or a second file in one slot.
Telling decides nothing, nor do the files that are left out. If there are test cases, each file has
been left out or is in one of them. Discovering tells of the candidates first, and then goes on with
them in this way. -/
theorem relate_log (paths : List Text) :
    (∃ filed rest slots, paths.filter (!isBackup ·) = filed ++ rest ∧
      Recognized d loc.directory loc.format filed slots ∧
      (∀ p ∈ rest.head?, Misplaced d loc.directory loc.format slots p) ∧
      (loc.relate d paths).log =
        ((paths.filter isBackup).map fun p =>
            (.warning, s!"ignore a backup file: {String.ofList p}")) ++
          ((filed.zip slots).map fun (p, ⟨n, e⟩) =>
            (.debug,
              s!"{String.ofList p} is the {String.ofList e.text} file of \"{String.ofList n}\"")) ++
          match (loc.relate d paths).outcome with
          | .ok cases => [(.info, s!"{cases.length} cases found")]
          | .error cause => if cause.told then [(.error, cause.message)] else []) ∧
      (∀ cause, (loc.relate d paths).outcome = .error cause → cause.told = false →
        (∃ n e p q, cause = .duplicateFile n e p q) ∨ cause = .linkLoop ∨ cause = .nulInPath) ∧
      (loc.relate d paths).outcome = loc.relateQuietly d paths ∧
      (loc.relate d (paths.filter (!isBackup ·))).outcome = (loc.relate d paths).outcome ∧
      (∀ cases, (loc.relate d paths).outcome = .ok cases →
        (paths.filter isBackup ++ (cases.flatMap Case.filled).map Prod.snd).Perm paths) ∧
      ∃ found, (loc.glob d).outcome = .ok found ∧
        (loc.discover d).outcome = (loc.relate d found).outcome ∧
        (loc.discover d).log =
          (found.map fun p => (.debug, s!"testcase globbed: {String.ofList p}")) ++
            (loc.relate d found).log := by
  have hglob : (loc.glob d).outcome = .ok _ := candidates_eq loc.valid
  refine ⟨?_, fun cause => loc.cause_of_not_told d, loc.outcome_relate d paths,
    loc.outcome_relate_filter d paths, fun cases => loc.perm_of_relate d, _, hglob, ?_, ?_⟩
  · obtain ⟨filed, rest, slots, hpaths, hslots, hrest, hevents⟩ :=
      @events_pair d loc.directory loc.format (paths.filter (!isBackup ·)) loc.valid
    refine ⟨filed, rest, slots, hpaths, hslots, hrest, ?_⟩
    rw [relate_eq]
    simp only [Traced.log, hevents, List.map_append, filedEvents, List.map_map, List.append_assoc]
    refine congrArg₂ _ rfl (congrArg₂ _ rfl ?_)
    cases (pair d loc.directory loc.format (paths.filter (!isBackup ·))).outcome with
    | ok cases => rfl
    | error cause => cases htold : cause.told <;> simp only [closing, htold] <;> rfl
  · rw [discover, Traced.bind_ok hglob]
  · rw [discover, Traced.bind_ok hglob, glob, candidates, Format.globPattern_eq loc.valid]
    simp only [Traced.log, Traced.telling, List.map_append, List.map_map]
    rfl

end Locator

end CaseFiles
