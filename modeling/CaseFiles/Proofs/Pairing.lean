import CaseFiles.Proofs.Filing
import CaseFiles.Proofs.Recognition
import Mathlib.Data.List.Find
import Mathlib.Data.List.Induction

/-!
# What comes of pairing

What comes of pairing is decided by what the files are recognised for. The first file that has no
slot of its own ends the run; if each has one, the first name with an output and no input does; and
if there is no such name, then the test cases are those of the names, in the order in which they
first appear, and have each file in the slot that it was recognised for. Main statement:
`pair_outcome`.
-/

namespace CaseFiles

/-- The files at the paths are recognised for these slots, in order and no two for the same. -/
structure Recognized (d : Disk) (directory f : Text) (paths : List Text) (slots : List Slot) :
    Prop where
  each : paths.map (recognize d directory f) = slots.map fun s => .ok (some s)
  distinct : slots.Nodup

/-- A file has no slot of its own, but all before it have: the cause with which it ends the run. -/
inductive Stops (d : Disk) (directory f : Text) : List Text → Error → Prop
  | fault {before after : List Text} {slots : List Slot} {p : Text} {cause : Error} :
      Recognized d directory f before slots → recognize d directory f p = .error cause →
      Stops d directory f (before ++ p :: after) cause
  | foreign {before after : List Text} {slots : List Slot} {p : Text} :
      Recognized d directory f before slots → recognize d directory f p = .ok none →
      Stops d directory f (before ++ p :: after) (.unrecognizedFile p f)
  | taken {before after : List Text} {slots : List Slot} {p q : Text} {s : Slot} {j : Nat} :
      Recognized d directory f before slots → recognize d directory f p = .ok (some s) →
      slots[j]? = some s → before[j]? = some q →
      Stops d directory f (before ++ p :: after) (.duplicateFile s.name s.ext q p)

/-- The names of the slots, in the order in which they first appear. -/
def namesOf (slots : List Slot) : List Text := (slots.map Slot.name).eraseDups

/-- The first name with an output and no input. -/
def firstDangling (slots : List Slot) : Option Text :=
  (namesOf slots).find? fun n => decide (⟨n, .output⟩ ∈ slots ∧ ⟨n, .input⟩ ∉ slots)

/-- The files of a test case, each with its slot. -/
def Case.filled (c : Case) : List (Slot × Text) :=
  (⟨c.name, .input⟩, c.input) :: c.output.toList.map fun q => (⟨c.name, .output⟩, q)

/-- The test cases that files make which are recognised for these slots. -/
structure Assembled (paths : List Text) (slots : List Slot) (cases : List Case) : Prop where
  names : cases.map Case.name = namesOf slots
  input : ∀ c ∈ cases, (⟨c.name, .input⟩, c.input) ∈ slots.zip paths
  output : ∀ c ∈ cases, ∀ q, c.output = some q ↔ (⟨c.name, .output⟩, q) ∈ slots.zip paths
  files : (cases.flatMap Case.filled).Perm (slots.zip paths)
  count : cases.length + (cases.filterMap Case.output).length = paths.length

section

variable {d : Disk} {directory f : Text} {paths before : List Text} {slots : List Slot}

theorem Recognized.snoc {p : Text} {s : Slot} (h : Recognized d directory f paths slots)
    (hp : recognize d directory f p = .ok (some s)) (hs : s ∉ slots) :
    Recognized d directory f (paths ++ [p]) (slots ++ [s]) := by
  constructor
  · rw [List.map_append, List.map_append, h.each, List.map_singleton, hp]
    rfl
  · rw [List.nodup_append]
    refine ⟨h.distinct, List.nodup_singleton s, fun a ha b hb => ?_⟩
    rw [List.mem_singleton.mp hb]
    rintro rfl
    exact hs ha

theorem Stops.append {cause : Error} (h : Stops d directory f paths cause) (more : List Text) :
    Stops d directory f (paths ++ more) cause := by
  cases h with
  | fault hbefore hp => rw [List.append_assoc]; exact .fault hbefore hp
  | foreign hbefore hp => rw [List.append_assoc]; exact .foreign hbefore hp
  | taken hbefore hp hs hq => rw [List.append_assoc]; exact .taken hbefore hp hs hq

theorem Recognized.length_eq (h : Recognized d directory f paths slots) :
    paths.length = slots.length := by
  simpa using congrArg List.length h.each

/-- Either all files have slots of their own or there is a first one that has none. -/
theorem recognized_or_stops (d : Disk) (directory f : Text) (paths : List Text) :
    (∃ slots, Recognized d directory f paths slots) ∨ ∃ cause, Stops d directory f paths cause := by
  induction paths using List.reverseRecOn with
  | nil => exact Or.inl ⟨[], rfl, List.nodup_nil⟩
  | append_singleton paths p ih =>
    rcases ih with ⟨slots, hslots⟩ | ⟨cause, hstops⟩
    · cases hp : recognize d directory f p with
      | error cause => exact Or.inr ⟨cause, .fault hslots hp⟩
      | ok found =>
        cases found with
        | none => exact Or.inr ⟨_, .foreign hslots hp⟩
        | some s =>
          by_cases hs : s ∈ slots
          · obtain ⟨j, hj⟩ := List.mem_iff_getElem?.mp hs
            have hlt : j < paths.length :=
              hslots.length_eq ▸ (List.getElem?_eq_some_iff.mp hj).1
            exact Or.inr ⟨_, .taken hslots hp hj (List.getElem?_eq_getElem hlt)⟩
          · exact Or.inl ⟨_, hslots.snoc hp hs⟩
    · exact Or.inr ⟨cause, hstops.append [p]⟩

theorem answer_injective :
    Function.Injective fun s : Slot => (.ok (some s) : Except Error (Option Slot)) :=
  fun _ _ h => Option.some.inj (Except.ok.inj h)

/-- The paths are recognised for one row of slots only. -/
theorem Recognized.slots_eq {slots' : List Slot} (h : Recognized d directory f paths slots)
    (h' : Recognized d directory f paths slots') : slots = slots' :=
  List.map_injective_iff.mpr answer_injective (h.each.symm.trans h'.each)

/-- The slot of each file is decided by its path. -/
theorem Recognized.exists_slot (h : Recognized d directory f paths slots) :
    ∃ slot : Text → Slot, (∀ p ∈ paths, recognize d directory f p = .ok (some (slot p))) ∧
      paths.map slot = slots := by
  have hall : ∀ p ∈ paths, ∃ s, recognize d directory f p = .ok (some s) := by
    intro p hp
    have hmem : recognize d directory f p ∈ slots.map fun s => .ok (some s) :=
      h.each ▸ List.mem_map_of_mem hp
    obtain ⟨s, -, hs⟩ := List.mem_map.mp hmem
    exact ⟨s, hs.symm⟩
  obtain ⟨slot, hslot⟩ := exists_slot_of_recognize hall
  refine ⟨slot, hslot, ?_⟩
  apply List.map_injective_iff.mpr answer_injective
  rw [← h.each, List.map_map]
  exact (List.map_congr_left hslot).symm

/-- The slots are those of the paths they are zipped with. -/
theorem Recognized.map_fst_zip (h : Recognized d directory f paths slots) :
    (slots.zip paths).map Prod.fst = slots :=
  List.map_fst_zip (Nat.le_of_eq h.length_eq.symm)

/-- Files with slots of their own are filed, each into its slot. -/
theorem Recognized.fileAll (h : Recognized d directory f paths slots) :
    ∃ gs, (fileAll d directory f [] paths).outcome = .ok gs ∧ Orderly gs ∧
      gs.map Filed.name = namesOf slots ∧
      ∀ s q, inSlot gs s = some q ↔ (s, q) ∈ slots.zip paths := by
  obtain ⟨slot, hslot, rfl⟩ := h.exists_slot
  obtain ⟨gs, hout, horderly, hnames, hin⟩ :=
    fileAll_recognized hslot h.distinct orderly_nil fun _ _ => rfl
  have hzip : (paths.map slot).zip paths = paths.map fun p => (slot p, p) := by
    simpa using List.zip_map' (f := slot) (g := id) (l := paths)
  refine ⟨gs, hout, horderly, ?_, fun s q => ?_⟩
  · rw [hnames, namesOf, List.map_map]
    simp [List.removeAll, Function.comp_def]
  · rw [hin, hzip]
    simp [inSlot, and_comm]

/-- Files are filed after those before them. -/
theorem fileAll_append {gs gs' : List Filed}
    (h : (fileAll d directory f gs before).outcome = .ok gs') (after : List Text) :
    (fileAll d directory f gs (before ++ after)).outcome =
      (fileAll d directory f gs' after).outcome := by
  induction before generalizing gs with
  | nil => rw [List.nil_append, Except.ok.inj h]
  | cons p before ih =>
    rw [fileAll] at h
    rw [List.cons_append, fileAll]
    cases hp : recognize d directory f p with
    | error cause => rw [hp] at h; cases h
    | ok found =>
      cases found with
      | none => rw [hp] at h; cases h
      | some s =>
        cases hs : inSlot gs s with
        | some q => rw [hp] at h; simp only [hs] at h; cases h
        | none =>
          rw [hp] at h
          simp only [hs] at h ⊢
          rw [Traced.bind_ok rfl] at h ⊢
          exact ih h

/-- The first file without a slot of its own ends the filing. -/
theorem Stops.fileAll {cause : Error} (h : Stops d directory f paths cause) :
    (fileAll d directory f [] paths).outcome = .error cause := by
  cases h with
  | fault hbefore hp =>
    obtain ⟨gs, hout, -⟩ := hbefore.fileAll
    rw [fileAll_append hout, CaseFiles.fileAll, hp]
    rfl
  | foreign hbefore hp =>
    obtain ⟨gs, hout, -⟩ := hbefore.fileAll
    rw [fileAll_append hout, CaseFiles.fileAll, hp]
    rfl
  | @taken before after slots p q s j hbefore hp hs hq =>
    obtain ⟨gs, hout, -, -, hin⟩ := hbefore.fileAll
    have hmem : (s, q) ∈ slots.zip before :=
      List.mem_iff_getElem?.mpr ⟨j, List.getElem?_zip_eq_some.mpr ⟨hs, hq⟩⟩
    rw [fileAll_append hout, CaseFiles.fileAll, hp]
    simp only [(hin s q).mpr hmem]
    rfl

/-- The first row without an input ends the run. -/
theorem toCases_dangling {gs : List Filed} {g : Filed}
    (h : gs.find? (·.input.isNone) = some g) :
    toCases directory f gs = .error (.danglingOutput g.name (g.output.getD [])) := by
  have hmap : gs.mapM Filed.toCase = .error (.danglingOutput g.name (g.output.getD [])) := by
    induction gs with
    | nil => exact nomatch h
    | cons first gs ih =>
      rw [List.mapM_cons, Filed.toCase]
      cases hinput : first.input with
      | none =>
        rw [List.find?_cons_of_pos (by simp [hinput])] at h
        rw [Option.some.inj h]
        rfl
      | some input =>
        rw [List.find?_cons_of_neg (by simp [hinput])] at h
        rw [ih h]
        rfl
  rw [toCases, hmap]
  rfl

theorem Case.mem_filled {c : Case} {s : Slot} {q : Text} :
    (s, q) ∈ c.filled ↔ c.row.name = s.name ∧ c.row.get s.ext = some q := by
  obtain ⟨name, e⟩ := s
  cases e <;> simp [Case.filled, Case.row, Filed.get, eq_comm, and_comm]

/-- The files of test cases are those in the slots of their rows. -/
theorem mem_flatMap_filled {cases : List Case} (h : Orderly (cases.map Case.row)) {s : Slot}
    {q : Text} :
    (s, q) ∈ cases.flatMap Case.filled ↔ inSlot (cases.map Case.row) s = some q := by
  rw [h.inSlot_eq_some_iff, List.mem_flatMap]
  constructor
  · rintro ⟨c, hc, hfilled⟩
    exact ⟨c.row, List.mem_map_of_mem hc, Case.mem_filled.mp hfilled⟩
  · rintro ⟨_, hg, hfilled⟩
    obtain ⟨c, hc, rfl⟩ := List.mem_map.mp hg
    exact ⟨c, hc, Case.mem_filled.mpr hfilled⟩

theorem nodup_filled {cases : List Case} (h : (cases.map Case.name).Nodup) :
    (cases.flatMap Case.filled).Nodup := by
  rw [List.nodup_flatMap]
  constructor
  · rintro ⟨name, input, output⟩ -
    cases output <;> simp [Case.filled]
  · refine (List.pairwise_map.mp h).imp fun hne => ?_
    rintro ⟨s, q⟩ hc hc'
    exact hne ((Case.mem_filled.mp hc).1.trans (Case.mem_filled.mp hc').1.symm)

theorem length_filled (cases : List Case) :
    (cases.flatMap Case.filled).length =
      cases.length + (cases.filterMap Case.output).length := by
  induction cases with
  | nil => rfl
  | cons c cases ih =>
    rw [List.flatMap_cons, List.length_append, ih, List.filterMap_cons, Case.filled]
    cases c.output <;> simp <;> omega

section

variable {gs : List Filed} (h : Recognized d directory f paths slots) (hgs : Orderly gs)
  (hnames : gs.map Filed.name = namesOf slots)
  (hin : ∀ s q, inSlot gs s = some q ↔ (s, q) ∈ slots.zip paths)

include h hgs hin

/-- A row has a file of each extension that its name has a slot for. -/
theorem isSome_get_iff {g : Filed} (hg : g ∈ gs) (e : Ext) :
    (g.get e).isSome ↔ ⟨g.name, e⟩ ∈ slots := by
  rw [← h.map_fst_zip, List.mem_map, Option.isSome_iff_exists, ← hgs.inSlot_eq hg e]
  constructor
  · rintro ⟨q, hq⟩
    exact ⟨_, (hin _ q).mp hq, rfl⟩
  · rintro ⟨⟨s, q⟩, hq, rfl⟩
    exact ⟨q, (hin _ q).mpr hq⟩

include hnames

/-- The first name with an output and no input is that of the first row without an input, as no row
is empty. -/
theorem firstDangling_eq :
    firstDangling slots = (gs.find? (·.input.isNone)).map Filed.name := by
  rw [firstDangling, ← hnames, List.find?_map]
  congr 1
  refine List.find?_congr fun g hg => ?_
  rw [Function.comp_apply, Bool.eq_iff_iff, decide_eq_true_eq,
    ← isSome_get_iff h hgs hin hg .output, ← isSome_get_iff h hgs hin hg .input,
    Option.isNone_iff_eq_none, Option.not_isSome_iff_eq_none]
  refine and_iff_right_of_imp fun hinput => ?_
  obtain ⟨e, q, hq⟩ := hgs.filled g hg
  cases e with
  | input => exact nomatch hinput.symm.trans hq
  | output => exact Option.isSome_iff_exists.mpr ⟨q, hq⟩

/-- Rows that are those of test cases have the files of the slots. -/
theorem assembled_rows {cases : List Case} (hrows : gs = cases.map Case.row) :
    Assembled paths slots cases := by
  have hrow {c : Case} (hc : c ∈ cases) : c.row ∈ gs := hrows ▸ List.mem_map_of_mem hc
  have hcases : cases.map Case.name = gs.map Filed.name := by
    rw [hrows, List.map_map]
    rfl
  have hperm : (cases.flatMap Case.filled).Perm (slots.zip paths) := by
    have hzip : (slots.zip paths).Nodup :=
      List.Nodup.of_map Prod.fst (h.map_fst_zip.symm ▸ h.distinct)
    refine (List.perm_ext_iff_of_nodup (nodup_filled (hcases ▸ hgs.nodup)) hzip).mpr ?_
    rintro ⟨s, q⟩
    rw [← hin, mem_flatMap_filled (hrows ▸ hgs), hrows]
  refine ⟨hcases.trans hnames, fun c hc => ?_, fun c hc q => ?_, hperm, ?_⟩
  · rw [← hin]
    exact hgs.inSlot_eq (hrow hc) .input
  · rw [← hin]
    exact hgs.inSlot_eq (hrow hc) .output ▸ Iff.rfl
  · rw [← length_filled, hperm.length_eq, List.length_zip, h.length_eq, Nat.min_self]

end

/-- The first file without a slot of its own ends the run. -/
theorem Stops.pair {cause : Error} (hf : Format.validate f = .ok ())
    (h : Stops d directory f paths cause) : (pair d directory f paths).outcome = .error cause := by
  rw [CaseFiles.pair, hf, Traced.bind_ok rfl, Traced.bind_error h.fileAll]

/-- Rows make no test cases only if one has no input or there are none. -/
theorem fault_of_toCases {gs : List Filed} {cause : Error}
    (h : toCases directory f gs = .error cause) :
    (∃ n q, cause = .danglingOutput n q) ∨ cause = .noCases directory f := by
  cases hfind : gs.find? (·.input.isNone) with
  | some g =>
    rw [toCases_dangling hfind] at h
    exact Or.inl ⟨_, _, (Except.error.inj h).symm⟩
  | none =>
    obtain ⟨cases, rfl⟩ := exists_rows hfind
    cases cases with
    | nil => exact Or.inr (Except.error.inj h).symm
    | cons c cases =>
      have hcases : toCases directory f ((c :: cases).map Case.row) = .ok (c :: cases) :=
        toCases_eq_ok_iff.mpr ⟨List.cons_ne_nil c cases, rfl⟩
      exact nomatch h.symm.trans hcases

/-- What ends a run is a file without a slot of its own, a missing input, or that there is
nothing. -/
theorem fault_of_pair (hf : Format.validate f = .ok ()) {cause : Error}
    (h : (pair d directory f paths).outcome = .error cause) :
    Stops d directory f paths cause ∨ (∃ n q, cause = .danglingOutput n q) ∨
      cause = .noCases directory f := by
  rcases recognized_or_stops d directory f paths with ⟨slots, hslots⟩ | ⟨first, hstops⟩
  · obtain ⟨slot, hslot, rfl⟩ := hslots.exists_slot
    obtain ⟨gs, hpair, -, -⟩ := pair_recognized hslot hslots.distinct hf
    exact Or.inr (fault_of_toCases (hpair.symm.trans h))
  · obtain rfl := Except.error.inj ((hstops.pair hf).symm.trans h)
    exact Or.inl hstops

/-- In a run that succeeds each file has a slot of its own, and the test cases have it there. -/
theorem exists_slot_of_pair (hf : Format.validate f = .ok ()) {cases : List Case}
    (h : (pair d directory f paths).outcome = .ok cases) :
    ∃ slot : Text → Slot, (∀ p ∈ paths, recognize d directory f p = .ok (some (slot p))) ∧
      (paths.map slot).Nodup ∧ cases ≠ [] ∧ Orderly (cases.map Case.row) ∧
      ∀ s q, inSlot (cases.map Case.row) s = some q ↔ q ∈ paths ∧ slot q = s := by
  rcases recognized_or_stops d directory f paths with ⟨slots, hslots⟩ | ⟨cause, hstops⟩
  · obtain ⟨slot, hslot, rfl⟩ := hslots.exists_slot
    obtain ⟨gs, hpair, horderly, hin⟩ := pair_recognized hslot hslots.distinct hf
    obtain ⟨hne, rfl⟩ := toCases_eq_ok_iff.mp (hpair.symm.trans h)
    exact ⟨slot, hslot, hslots.distinct, hne, horderly, hin⟩
  · exact nomatch (hstops.pair hf).symm.trans h

/-- Files with slots of their own make test cases if there is a file and no output without an input. -/
theorem Recognized.pair_eq_ok_iff (hf : Format.validate f = .ok ())
    (h : Recognized d directory f paths slots) :
    (∃ cases, (CaseFiles.pair d directory f paths).outcome = .ok cases) ↔
      firstDangling slots = none ∧ paths ≠ [] := by
  obtain ⟨gs, hout, hgs, hnames, hin⟩ := h.fileAll
  rw [outcome_pair hf hout, firstDangling_eq h hgs hnames hin, Option.map_eq_none_iff]
  constructor
  · rintro ⟨cases, hcases⟩
    obtain ⟨hne, rfl⟩ := toCases_eq_ok_iff.mp hcases
    refine ⟨List.find?_eq_none.mpr fun g hg => ?_, ?_⟩
    · obtain ⟨c, -, rfl⟩ := List.mem_map.mp hg
      exact Bool.false_ne_true
    · rintro rfl
      have hcount := (assembled_rows h hgs hnames hin rfl).count
      exact hne (List.eq_nil_of_length_eq_zero (Nat.eq_zero_of_add_eq_zero_right hcount))
  · rintro ⟨hnone, hpaths⟩
    obtain ⟨cases, hrows⟩ := exists_rows hnone
    refine ⟨cases, toCases_eq_ok_iff.mpr ⟨?_, hrows⟩⟩
    rintro rfl
    exact hpaths (List.eq_nil_of_length_eq_zero
      (assembled_rows h hgs hnames hin hrows).count.symm)

/-- In a run that succeeds the test cases are those that the files make. -/
theorem exists_assembled_of_pair (hf : Format.validate f = .ok ()) {cases : List Case}
    (h : (pair d directory f paths).outcome = .ok cases) :
    ∃ slots, Recognized d directory f paths slots ∧ Assembled paths slots cases := by
  rcases recognized_or_stops d directory f paths with ⟨slots, hslots⟩ | ⟨cause, hstops⟩
  · obtain ⟨gs, hout, hgs, hnames, hin⟩ := hslots.fileAll
    obtain ⟨-, hrows⟩ := toCases_eq_ok_iff.mp ((outcome_pair hf hout).symm.trans h)
    exact ⟨slots, hslots, assembled_rows hslots hgs hnames hin hrows⟩
  · exact nomatch (hstops.pair hf).symm.trans h

/-- What comes of pairing is decided by what the files are recognised for. -/
theorem pair_outcome (hf : Format.validate f = .ok ()) :
    ((∃ slots, Recognized d directory f paths slots) ∨ ∃ cause, Stops d directory f paths cause) ∧
      (∀ cause, Stops d directory f paths cause →
        (pair d directory f paths).outcome = .error cause) ∧
      ∀ slots, Recognized d directory f paths slots →
        (∀ n, firstDangling slots = some n → ∃ q, (⟨n, .output⟩, q) ∈ slots.zip paths ∧
          (pair d directory f paths).outcome = .error (.danglingOutput n q)) ∧
        (firstDangling slots = none → paths = [] →
          (pair d directory f paths).outcome = .error (.noCases directory f)) ∧
        (firstDangling slots = none → paths ≠ [] →
          ∃ cases, (pair d directory f paths).outcome = .ok cases ∧
            Assembled paths slots cases) := by
  refine ⟨recognized_or_stops d directory f paths, fun cause hstops => ?_, fun slots h => ?_⟩
  · rw [pair, hf, Traced.bind_ok rfl, Traced.bind_error hstops.fileAll]
  obtain ⟨gs, hout, hgs, hnames, hin⟩ := h.fileAll
  have hdangling := firstDangling_eq h hgs hnames hin
  rw [outcome_pair hf hout, hdangling]
  refine ⟨fun n hn => ?_, fun hnone hpaths => ?_, fun hnone hpaths => ?_⟩
  · obtain ⟨g, hg, rfl⟩ := Option.map_eq_some_iff.mp hn
    have hmem := List.mem_of_find?_eq_some hg
    have hinput : g.input = none := by simpa using List.find?_some hg
    obtain ⟨q, hq⟩ : ∃ q, g.output = some q := by
      obtain ⟨e, q, hq⟩ := hgs.filled g hmem
      cases e with
      | input => cases hinput.symm.trans hq
      | output => exact ⟨q, hq⟩
    refine ⟨q, (hin _ q).mp ((hgs.inSlot_eq hmem .output).trans hq), ?_⟩
    rw [toCases_dangling hg, hq]
    rfl
  · obtain ⟨cases, hrows⟩ := exists_rows (Option.map_eq_none_iff.mp hnone)
    have hcount := (assembled_rows h hgs hnames hin hrows).count
    rw [hpaths, List.length_nil] at hcount
    rw [hrows, List.eq_nil_of_length_eq_zero (Nat.eq_zero_of_add_eq_zero_right hcount)]
    rfl
  · obtain ⟨cases, hrows⟩ := exists_rows (Option.map_eq_none_iff.mp hnone)
    have hassembled := assembled_rows h hgs hnames hin hrows
    refine ⟨cases, toCases_eq_ok_iff.mpr ⟨?_, hrows⟩, hassembled⟩
    rintro rfl
    exact hpaths (List.eq_nil_of_length_eq_zero hassembled.count.symm)

end

/-- The output of `b` comes before its input, and `a` has an input only. -/
theorem pair_outcome_two_names :
    Recognized ⟨.empty, [], by simp⟩ ['.'] Format.default
        [['b', '.', 'o', 'u', 't'], ['.', '/', 'a', '.', 'i', 'n'], ['b', '.', 'i', 'n']]
        [⟨['b'], .output⟩, ⟨['a'], .input⟩, ⟨['b'], .input⟩] ∧
      ∃ cases, (pair ⟨.empty, [], by simp⟩ ['.'] Format.default
          [['b', '.', 'o', 'u', 't'], ['.', '/', 'a', '.', 'i', 'n'],
            ['b', '.', 'i', 'n']]).outcome = .ok cases ∧
        Assembled
          [['b', '.', 'o', 'u', 't'], ['.', '/', 'a', '.', 'i', 'n'], ['b', '.', 'i', 'n']]
          [⟨['b'], .output⟩, ⟨['a'], .input⟩, ⟨['b'], .input⟩] cases := by
  have hrecognized : Recognized ⟨.empty, [], by simp⟩ ['.'] Format.default
      [['b', '.', 'o', 'u', 't'], ['.', '/', 'a', '.', 'i', 'n'], ['b', '.', 'i', 'n']]
      [⟨['b'], .output⟩, ⟨['a'], .input⟩, ⟨['b'], .input⟩] := by
    have hroot : Disk.resolve ⟨.empty, [], by simp⟩ ['.'] = .ok ['/'] := rfl
    have hslot {p n r : Text} {e : Ext}
        (hfile : Disk.resolve ⟨.empty, [], by simp⟩ p = .ok ('/' :: r))
        (hr : Format.render (Format.caseTable n e) Format.default = .ok r)
        (hname : n ≠ [] ∧ ∀ c ∈ lineEnds, c ∉ n) :
        recognize ⟨.empty, [], by simp⟩ ['.'] Format.default p = .ok (some ⟨n, e⟩) :=
      (recognize_eq_some_iff rfl hroot hfile).mpr ⟨hname, r, hr, rfl⟩
    refine ⟨?_, by decide⟩
    simp only [List.map_cons, List.map_nil, List.cons.injEq, and_true]
    exact ⟨hslot rfl rfl ⟨by simp, by simp [lineEnds]⟩,
      hslot rfl rfl ⟨by simp, by simp [lineEnds]⟩, hslot rfl rfl ⟨by simp, by simp [lineEnds]⟩⟩
  exact ⟨hrecognized, ((pair_outcome rfl).2.2 _ hrecognized).2.2 rfl (List.cons_ne_nil _ _)⟩

end CaseFiles
