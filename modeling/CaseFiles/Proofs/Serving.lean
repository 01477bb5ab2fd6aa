import CaseFiles.Listing
import CaseFiles.Proofs.Pairing
import CaseFiles.Proofs.Saving
import CaseFiles.Requests

/-!
# What can go wrong with a locator

A locator that has been made has a format that every reading accepts, so nothing that it is asked
later fails because of the format: candidates and paths are always found, and pairing fails only
because of the files. Main statement: `serveAll_answered`.
-/

namespace CaseFiles

open CaseFiles.Format (parts validate)

/-- The failures that files bring about: those of their paths, and those of looking them up. -/
def Error.ofFiles : Error → Bool
  | unrecognizedFile _ _ | duplicateFile _ _ _ _ | danglingOutput _ _ | noCases _ _ => true
  | linkLoop | nulInPath => true
  | malformedFormat _ | invalidFormat _ _ | undefinedPlaceholder _ _ => false
  | percentRedefined _ | noDirectory | badPattern => false

/-- The pattern of a format that has been checked is a regular expression behind any text. -/
theorem exists_parse_of_validate {f : Text} (hf : validate f = .ok ()) (before : Text) :
    ∃ p parsed, Format.pattern slotTable f = .ok p ∧
      Regex.parse (Regex.anchored (Regex.quote before ++ p.source)).units = some parsed := by
  obtain ⟨he, hfields, -, -⟩ := Format.validate_eq_ok_iff.mp hf
  have hpattern := Format.pattern_eq slotFragment he fun key hk => lookup_slotTable (hfields key hk)
  have hparse := Format.parse_anchored slotFragment (partsBehind before f)
  rw [← source_partsBehind] at hparse
  exact ⟨_, _, hpattern, hparse⟩

section

variable {d : Disk} {directory f : Text} {paths : List Text} (hf : validate f = .ok ())

include hf

/-- The first file without a slot of its own brings its failure about. -/
theorem ofFiles_of_stops {cause : Error} (h : Stops d directory f paths cause) :
    cause.ofFiles = true := by
  cases h with
  | fault _ hrec => rcases fault_of_recognize hf hrec with rfl | rfl <;> rfl
  | foreign | taken => rfl

/-- Pairing with a format that has been checked fails only because of the files. -/
theorem ofFiles_of_pair {cause : Error} (h : (pair d directory f paths).outcome = .error cause) :
    cause.ofFiles = true := by
  rcases fault_of_pair hf h with hstops | ⟨_, _, rfl⟩ | rfl
  · exact ofFiles_of_stops hf hstops
  · rfl
  · rfl

end

namespace Locator

variable {loc : Locator} {d : Disk}

theorem ofFiles_of_relate {paths : List Text} {cause : Error}
    (h : (loc.relate d paths).outcome = .error cause) : cause.ofFiles = true := by
  rw [relate, dropBackups, Traced.bind_ok rfl] at h
  exact ofFiles_of_pair loc.valid h

theorem ofFiles_of_discover {cause : Error} (h : (loc.discover d).outcome = .error cause) :
    cause.ofFiles = true := by
  have hglob : (loc.glob d).outcome = .ok _ := candidates_eq loc.valid
  rw [discover, Traced.bind_ok hglob] at h
  exact ofFiles_of_relate h

/-- A request is answered: what a format is enough for is found, and the test cases are found or the
files are to blame. -/
inductive Request.Answered : Request → Reply → Prop
  | glob {r : Traced (List Text)} {found : List Text} :
      r.outcome = .ok found → Answered .glob (.paths r)
  | relate {paths : List Text} {r : Traced (List Case)} :
      (∀ cause, r.outcome = .error cause → cause.ofFiles = true) →
      Answered (.relate paths) (.cases r)
  | discover {r : Traced (List Case)} :
      (∀ cause, r.outcome = .error cause → cause.ofFiles = true) → Answered .discover (.cases r)
  | pathFor {name p : Text} {ext : Ext} : Answered (.pathFor name ext) (.path (.ok p))
  | change {effect : Disk → Disk} : Answered (.change effect) .changed

/-- Each request is answered on whatever disk there is. -/
theorem serve_answered (loc : Locator) (d : Disk) (q : Request) :
    q.Answered (loc.serve d q).1 := by
  cases q with
  | glob => exact .glob (candidates_eq loc.valid)
  | relate paths => exact .relate fun cause => ofFiles_of_relate
  | discover => exact .discover fun cause => ofFiles_of_discover
  | pathFor name ext =>
    rw [serve, loc.pathFor_eq ⟨name, ext⟩]
    exact .pathFor
  | change effect => exact .change

/-- A locator is made of the directory and the format that are given. -/
theorem eq_of_make {directory format : Setting} (h : make directory format = .ok loc) :
    directory = .text loc.directory ∧ formatOf format = .ok loc.format := by
  have hdirectory {dir : { t : Text // t ≠ [] }} (hdir : directoryOf directory = .ok dir) :
      directory = .text dir.1 := by
    unfold directoryOf at hdir
    split at hdir
    next t =>
      split at hdir
      · rw [← Except.ok.inj hdir]
      · exact nomatch hdir
    next => exact nomatch hdir
  rw [make] at h
  cases hdir : directoryOf directory with
  | error cause =>
    rw [hdir] at h
    exact nomatch h
  | ok dir =>
    cases hformat : formatOf format with
    | error cause =>
      rw [hdir, hformat] at h
      exact nomatch h
    | ok f =>
      rw [hdir, hformat] at h
      simp only [bind, Except.bind] at h
      split at h
      · rw [← Except.ok.inj h]
        exact ⟨hdirectory hdir, rfl⟩
      · exact nomatch h

/-- All requests to a locator that has been made are answered, in order and whatever becomes of the
disk, and its pattern is a regular expression behind any text. -/
theorem serveAll_answered {directory format : Setting} (h : make directory format = .ok loc)
    (requests : List Request) :
    (directory = .text loc.directory ∧ formatOf format = .ok loc.format) ∧
      List.Forall₂ Request.Answered requests (loc.serveAll d requests) ∧
      ∀ before : Text, ∃ p parsed, Format.pattern slotTable loc.format = .ok p ∧
        Regex.parse (Regex.anchored (Regex.quote before ++ p.source)).units = some parsed := by
  refine ⟨eq_of_make h, ?_, exists_parse_of_validate loc.valid⟩
  clear h
  induction requests generalizing d with
  | nil => exact .nil
  | cons q requests ih => exact .cons (loc.serve_answered d q) ih

/-- What is asked of a locator in turn: nothing is there at first, then a dangling output, then a link
that leads to itself. -/
def misfortunes : List Request :=
  [.discover, .change fun d => d.add ⟨['a', '.', 'o', 'u', 't'], .file⟩, .discover, .glob,
    .change fun d => d.add ⟨['a', '.', 'i', 'n'], .link ['a', '.', 'i', 'n']⟩, .discover,
    .relate [['x']], .pathFor ['/'] .output]

/-- A locator for the default format survives them. -/
theorem serveAll_answered_misfortunes :
    ∃ loc, make (.text ['.']) .missing = .ok loc ∧ loc.format = Format.default ∧
      List.Forall₂ Request.Answered misfortunes
        (loc.serveAll (.standingAt ['/']) misfortunes) := by
  have hmake : make (.text ['.']) .missing =
      .ok ⟨['.'], Format.default, List.cons_ne_nil _ _, rfl⟩ := rfl
  exact ⟨_, hmake, rfl, (serveAll_answered hmake misfortunes).2.1⟩

end Locator

end CaseFiles
