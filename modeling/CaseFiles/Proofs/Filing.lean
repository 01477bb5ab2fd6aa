import CaseFiles.Pairing
import CaseFiles.Proofs.Distinct
import Mathlib.Data.List.Forall2
import Mathlib.Data.List.Nodup
import Mathlib.Data.List.Perm.Basic

/-!
# Filing files into slots

Filing a file fills its slot and no other one, and a name gets a row of its own when it comes first.
Files that are all recognised, no two of them in one slot, are filed without a failure, and then a
slot has the file that was recognised for it. Main statements: what filing one file does to each slot
(`inSlot_fileIn`), and what pairing recognised files comes to (`pair_recognized`).
-/

namespace CaseFiles

@[simp] theorem Filed.name_set (g : Filed) (path : Text) (e : Ext) :
    (g.set path e).name = g.name := by
  cases e <;> rfl

theorem Filed.get_set (g : Filed) (path : Text) (e e' : Ext) :
    (g.set path e).get e' = if e' = e then some path else g.get e' := by
  cases e <;> cases e' <;> rfl

theorem inSlot_cons (g : Filed) (gs : List Filed) (s : Slot) :
    inSlot (g :: gs) s = if g.name = s.name then g.get s.ext else inSlot gs s := by
  unfold inSlot
  rw [List.find?_cons]
  by_cases h : g.name = s.name
  · rw [if_pos h, beq_iff_eq.mpr h]
    rfl
  · rw [if_neg h, beq_false_of_ne h]

/-- Filing fills one slot and keeps the others. -/
theorem inSlot_fileIn (s : Slot) (path : Text) (gs : List Filed) (s' : Slot) :
    inSlot (fileIn s path gs) s' = if s' = s then some path else inSlot gs s' := by
  obtain ⟨name, e⟩ := s
  obtain ⟨name', e'⟩ := s'
  induction gs with
  | nil =>
    rw [fileIn, inSlot_cons, Filed.name_set, Filed.get_set]
    by_cases hname : name = name'
    · cases e' <;> simp [hname, Filed.get, inSlot]
    · simp [hname, Ne.symm hname, inSlot]
  | cons g gs ih =>
    rw [fileIn]
    by_cases hg : g.name = name
    · rw [if_pos hg, inSlot_cons, inSlot_cons, Filed.name_set, Filed.get_set, hg]
      by_cases hname : name = name'
      · simp [hname]
      · simp [hname, Ne.symm hname]
    · rw [if_neg hg, inSlot_cons, inSlot_cons, ih]
      by_cases hname : g.name = name'
      · simp [← hname, hg]
      · simp [hname]

/-- A name that is new comes last. -/
theorem names_fileIn (s : Slot) (path : Text) (gs : List Filed) :
    (fileIn s path gs).map Filed.name =
      if s.name ∈ gs.map Filed.name then gs.map Filed.name
      else gs.map Filed.name ++ [s.name] := by
  induction gs with
  | nil => simp [fileIn]
  | cons g gs ih =>
    rw [fileIn]
    by_cases hg : g.name = s.name
    · rw [if_pos hg, List.map_cons, Filed.name_set, List.map_cons, if_pos]
      rw [hg]
      exact List.mem_cons_self
    · rw [if_neg hg, List.map_cons, ih, List.map_cons]
      by_cases hmem : s.name ∈ gs.map Filed.name
      · rw [if_pos hmem, if_pos (List.mem_cons_of_mem _ hmem)]
      · rw [if_neg hmem, if_neg, List.cons_append]
        rw [List.mem_cons, not_or]
        exact ⟨fun h => hg h.symm, hmem⟩

/-- No name has two rows and no row is empty. -/
structure Orderly (gs : List Filed) : Prop where
  nodup : (gs.map Filed.name).Nodup
  filled : ∀ g ∈ gs, ∃ e path, g.get e = some path

theorem orderly_nil : Orderly [] := ⟨List.nodup_nil, fun _ h => nomatch h⟩

theorem mem_fileIn {s : Slot} {path : Text} {gs : List Filed} {g : Filed}
    (h : g ∈ fileIn s path gs) : g ∈ gs ∨ ∃ old : Filed, g = old.set path s.ext := by
  induction gs with
  | nil => exact Or.inr ⟨_, List.mem_singleton.mp h⟩
  | cons old gs ih =>
    rw [fileIn] at h
    split at h
    · rcases List.mem_cons.mp h with rfl | h
      · exact Or.inr ⟨old, rfl⟩
      · exact Or.inl (List.mem_cons_of_mem old h)
    · rcases List.mem_cons.mp h with rfl | h
      · exact Or.inl List.mem_cons_self
      · exact (ih h).imp_left (List.mem_cons_of_mem old)

theorem Orderly.fileIn {gs : List Filed} (h : Orderly gs) (s : Slot) (path : Text) :
    Orderly (fileIn s path gs) := by
  constructor
  · rw [names_fileIn]
    split
    · exact h.nodup
    · rename_i hnew
      refine List.nodup_append.mpr ⟨h.nodup, List.nodup_singleton _, fun a ha b hb => ?_⟩
      rw [List.mem_singleton.mp hb]
      rintro rfl
      exact hnew ha
  · intro g hg
    rcases mem_fileIn hg with hg | ⟨old, rfl⟩
    · exact h.filled g hg
    · exact ⟨s.ext, path, by rw [Filed.get_set, if_pos rfl]⟩

/-- The row of a name has what is in its slots. -/
theorem Orderly.inSlot_eq {gs : List Filed} (h : Orderly gs) {g : Filed} (hg : g ∈ gs) (e : Ext) :
    inSlot gs ⟨g.name, e⟩ = g.get e := by
  have hnodup := h.nodup
  clear h
  induction gs with
  | nil => exact nomatch hg
  | cons first gs ih =>
    rw [List.map_cons, List.nodup_cons] at hnodup
    rw [inSlot_cons]
    rcases List.mem_cons.mp hg with rfl | hg
    · rw [if_pos rfl]
    · have hne : first.name ≠ g.name := fun heq => hnodup.1 (heq ▸ List.mem_map_of_mem hg)
      rw [if_neg hne]
      exact ih hg hnodup.2

/-- What is in a slot is in the row of its name. -/
theorem mem_of_inSlot {gs : List Filed} {s : Slot} {path : Text} (h : inSlot gs s = some path) :
    ∃ g ∈ gs, g.name = s.name := by
  unfold inSlot at h
  obtain ⟨g, hfind, -⟩ := Option.bind_eq_some_iff.mp h
  exact ⟨g, List.mem_of_find?_eq_some hfind, by simpa using List.find?_some hfind⟩

/-- A slot has what is in the row of its name. -/
theorem Orderly.inSlot_eq_some_iff {gs : List Filed} (h : Orderly gs) {s : Slot} {q : Text} :
    inSlot gs s = some q ↔ ∃ g ∈ gs, g.name = s.name ∧ g.get s.ext = some q := by
  obtain ⟨name, e⟩ := s
  constructor
  · intro hs
    obtain ⟨g, hg, rfl⟩ := mem_of_inSlot hs
    exact ⟨g, hg, rfl, h.inSlot_eq hg e ▸ hs⟩
  · rintro ⟨g, hg, rfl, hs⟩
    rw [h.inSlot_eq hg, hs]

/-- A row is known by its name and its files. -/
theorem Filed.ext_get {g g' : Filed} (hname : g.name = g'.name) (hget : ∀ e, g.get e = g'.get e) :
    g = g' := by
  obtain ⟨name, input, output⟩ := g
  obtain ⟨name', input', output'⟩ := g'
  exact (Filed.mk.injEq ..).mpr ⟨hname, hget .input, hget .output⟩

/-- Rows with the same files in their slots are the same up to their order. -/
theorem Orderly.perm {gs gs' : List Filed} (h : Orderly gs) (h' : Orderly gs')
    (hin : ∀ s, inSlot gs s = inSlot gs' s) : gs.Perm gs' := by
  have hsub {gs gs' : List Filed} (h : Orderly gs) (h' : Orderly gs')
      (hin : ∀ s, inSlot gs s = inSlot gs' s) {g : Filed} (hg : g ∈ gs) : g ∈ gs' := by
    obtain ⟨e, q, hq⟩ := h.filled g hg
    obtain ⟨g', hg', hname⟩ := mem_of_inSlot ((hin _).symm.trans ((h.inSlot_eq hg e).trans hq))
    have hsame : g = g' := Filed.ext_get hname.symm fun e => by
      rw [← h.inSlot_eq hg, ← h'.inSlot_eq hg', hname, hin]
    exact hsame ▸ hg'
  exact (List.perm_ext_iff_of_nodup h.nodup.of_map h'.nodup.of_map).mpr fun g =>
    ⟨hsub h h' hin, hsub h' h fun s => (hin s).symm⟩

/-- If the files can be filed, then the rows decide what comes of pairing. -/
theorem outcome_pair {d : Disk} {directory f : Text} {paths : List Text} {gs : List Filed}
    (hf : Format.validate f = .ok ()) (h : (fileAll d directory f [] paths).outcome = .ok gs) :
    (pair d directory f paths).outcome = toCases directory f gs := by
  rw [pair, hf, Traced.bind_ok rfl, Traced.bind_ok h]
  cases toCases directory f gs <;> rfl

/-- The slot of a recognised file is decided by its path. -/
theorem exists_slot_of_recognize {d : Disk} {directory f : Text} {paths : List Text}
    (h : ∀ p ∈ paths, ∃ s, recognize d directory f p = .ok (some s)) :
    ∃ slot : Text → Slot, ∀ p ∈ paths, recognize d directory f p = .ok (some (slot p)) := by
  have : Nonempty Slot := ⟨[], .input⟩
  choose! slot hslot using h
  exact ⟨slot, hslot⟩

section

variable {d : Disk} {directory f : Text} {paths : List Text} {slot : Text → Slot}
  (hslot : ∀ p ∈ paths, recognize d directory f p = .ok (some (slot p)))
  (hdistinct : (paths.map slot).Nodup)

include hslot hdistinct

/-- Files that are recognised are filed if their slots are free and no two are in one slot; the
names that are new come last, in the order of the files. -/
theorem fileAll_recognized {gs : List Filed} (hgs : Orderly gs)
    (hfree : ∀ p ∈ paths, inSlot gs (slot p) = none) :
    ∃ gs', (fileAll d directory f gs paths).outcome = .ok gs' ∧ Orderly gs' ∧
      gs'.map Filed.name = gs.map Filed.name ++
        ((paths.map fun p => (slot p).name).removeAll (gs.map Filed.name)).eraseDups ∧
      ∀ s q, inSlot gs' s = some q ↔ inSlot gs s = some q ∨ (q ∈ paths ∧ slot q = s) := by
  induction paths generalizing gs with
  | nil => exact ⟨gs, rfl, hgs, by simp [List.removeAll], by simp⟩
  | cons p ps ih =>
    rw [List.map_cons, List.nodup_cons] at hdistinct
    have hp := hfree p List.mem_cons_self
    have hnew : ∀ q ∈ ps, inSlot (fileIn (slot p) p gs) (slot q) = none := by
      intro q hq
      have hne : slot q ≠ slot p := fun heq => hdistinct.1 (heq ▸ List.mem_map_of_mem hq)
      rw [inSlot_fileIn, if_neg hne]
      exact hfree q (List.mem_cons_of_mem p hq)
    obtain ⟨gs', hout, horderly, hnames, hin⟩ :=
      ih (fun q hq => hslot q (List.mem_cons_of_mem p hq)) hdistinct.2 (hgs.fileIn (slot p) p) hnew
    refine ⟨gs', ?_, horderly, ?_, fun s q => ?_⟩
    · rw [fileAll, hslot p List.mem_cons_self]
      simp only [hp]
      rw [Traced.bind_ok rfl]
      exact hout
    · rw [hnames, names_fileIn, List.map_cons, eraseDups_removeAll_cons]
    · rw [hin, inSlot_fileIn]
      by_cases hs : s = slot p
      · rw [if_pos hs, hs, hp]
        simp only [Option.some.injEq, List.mem_cons, reduceCtorEq, false_or]
        constructor
        · rintro (rfl | ⟨hq, heq⟩)
          · exact ⟨Or.inl rfl, rfl⟩
          · exact ⟨Or.inr hq, heq⟩
        · rintro ⟨rfl | hq, heq⟩
          · exact Or.inl rfl
          · exact Or.inr ⟨hq, heq⟩
      · rw [if_neg hs, List.mem_cons]
        constructor
        · rintro (h | ⟨hq, heq⟩)
          · exact Or.inl h
          · exact Or.inr ⟨Or.inr hq, heq⟩
        · rintro (h | ⟨rfl | hq, heq⟩)
          · exact Or.inl h
          · exact absurd heq.symm hs
          · exact Or.inr ⟨hq, heq⟩

/-- Files that are recognised are paired if no two are in one slot: what comes of it is decided by
the rows, in which a slot has the file that was recognised for it. -/
theorem pair_recognized (hf : Format.validate f = .ok ()) :
    ∃ gs, (pair d directory f paths).outcome = toCases directory f gs ∧ Orderly gs ∧
      ∀ s q, inSlot gs s = some q ↔ q ∈ paths ∧ slot q = s := by
  obtain ⟨gs, hout, horderly, -, hin⟩ :=
    fileAll_recognized hslot hdistinct orderly_nil fun _ _ => rfl
  refine ⟨gs, outcome_pair hf hout, horderly, fun s q => ?_⟩
  rw [hin]
  exact or_iff_right fun h => nomatch h

end

/-- A run over a list succeeds if each step does. -/
theorem mapM_eq_ok_iff {α β : Type} {step : α → Except Error β} {xs : List α} {ys : List β} :
    xs.mapM step = .ok ys ↔ List.Forall₂ (fun x y => step x = .ok y) xs ys := by
  induction xs generalizing ys with
  | nil =>
    rw [List.mapM_nil, List.forall₂_nil_left_iff]
    exact ⟨fun h => (Except.ok.inj h).symm, fun h => h ▸ rfl⟩
  | cons x xs ih =>
    rw [List.mapM_cons, List.forall₂_cons_left_iff]
    constructor
    · intro h
      cases hx : step x with
      | error cause =>
        rw [hx] at h
        exact nomatch h
      | ok y =>
        cases hxs : xs.mapM step with
        | error cause =>
          rw [hx, hxs] at h
          exact nomatch h
        | ok ys' =>
          rw [hx, hxs] at h
          exact ⟨y, ys', rfl, ih.mp hxs, (Except.ok.inj h).symm⟩
    · rintro ⟨y, ys', hx, hxs, rfl⟩
      rw [hx, ih.mpr hxs]
      rfl

/-- The row of a test case. -/
def Case.row (c : Case) : Filed := ⟨c.name, some c.input, c.output⟩

theorem toCase_eq_ok_iff {g : Filed} {c : Case} : g.toCase = .ok c ↔ g = c.row := by
  obtain ⟨name, input, output⟩ := g
  obtain ⟨name', input', output'⟩ := c
  cases input <;> simp [Filed.toCase, Case.row]

/-- There are test cases if there is a row and each row is that of one. -/
theorem toCases_eq_ok_iff {directory f : Text} {gs : List Filed} {cases : List Case} :
    toCases directory f gs = .ok cases ↔ cases ≠ [] ∧ gs = cases.map Case.row := by
  have hrows : gs.mapM Filed.toCase = .ok cases ↔ gs = cases.map Case.row := by
    rw [mapM_eq_ok_iff, ← List.forall₂_eq_eq_eq, List.forall₂_map_right_iff]
    simp only [toCase_eq_ok_iff]
  unfold toCases
  constructor
  · intro h
    cases hmap : gs.mapM Filed.toCase with
    | error cause =>
      rw [hmap] at h
      exact nomatch h
    | ok found =>
      rw [hmap] at h
      cases found with
      | nil => exact nomatch h
      | cons c found =>
        obtain rfl : c :: found = cases := Except.ok.inj h
        exact ⟨List.cons_ne_nil c found, hrows.mp hmap⟩
  · rintro ⟨hne, hgs⟩
    rw [hrows.mpr hgs]
    cases cases with
    | nil => exact absurd rfl hne
    | cons c cases => rfl

/-- Rows that all have an input are those of test cases. -/
theorem exists_rows {gs : List Filed} (h : gs.find? (·.input.isNone) = none) :
    ∃ cases : List Case, gs = cases.map Case.row := by
  refine ⟨gs.map fun g => ⟨g.name, g.input.getD [], g.output⟩, ?_⟩
  rw [List.map_map]
  refine (List.map_id gs).symm.trans (List.map_congr_left fun g hg => ?_)
  obtain ⟨name, input, output⟩ := g
  cases input with
  | none => simpa using List.find?_eq_none.mp h _ hg
  | some input => rfl

theorem Case.row_injective : Function.Injective Case.row := by
  rintro ⟨name, input, output⟩ ⟨name', input', output'⟩ h
  simpa [Case.row] using h

/-- Rows in another order are those of the same test cases in another order. -/
theorem exists_cases_of_perm {gs : List Filed} {cases : List Case}
    (h : gs.Perm (cases.map Case.row)) :
    ∃ found : List Case, gs = found.map Case.row ∧ found.Perm cases := by
  have hinputs : gs.find? (·.input.isNone) = none := by
    apply List.find?_eq_none.mpr
    intro g hg
    obtain ⟨c, -, rfl⟩ := List.mem_map.mp (h.mem_iff.mp hg)
    exact Bool.false_ne_true
  obtain ⟨found, rfl⟩ := exists_rows hinputs
  exact ⟨found, rfl, (List.map_perm_map_iff Case.row_injective).mp h⟩

end CaseFiles
