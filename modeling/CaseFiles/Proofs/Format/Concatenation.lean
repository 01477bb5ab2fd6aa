import CaseFiles.Format.GlobPattern
import CaseFiles.Proofs.Distinct
import CaseFiles.Proofs.Format.Scanning

/-!
# One format behind another

A percent sign takes the character after it along, so a format could change its meaning when another
one comes after it. It does not if nothing is left over at its end: then its tokens come first and
those of the other format follow, and each reading strings together what it makes of both. Main
statements: `scan_append`, `renderWith_append` and `readings_append`.
-/

namespace CaseFiles.Format

variable {α : Type} {f : Text}

/-- If a reading succeeds, then each part becomes something. -/
theorem exists_of_readParts {emit : List Char → Part → Except Error (List α)} {seen : List Char}
    {ps : List Part} {out : List α} (h : readParts emit seen ps = .ok out) :
    ∀ p ∈ ps, ∃ before o, emit before p = .ok o := by
  induction ps generalizing seen out with
  | nil => exact List.forall_mem_nil _
  | cons p ps ih =>
    obtain ⟨front, back, hp, hps, -⟩ := readParts_cons_eq_ok_iff.mp h
    exact List.forall_mem_cons.mpr ⟨⟨seen, front, hp⟩, ih hps⟩

/-- Rendering succeeds exactly if nothing is left over at the end and each field has a value, and
then it is filling in. -/
theorem renderWith_eq_ok_iff {spell : Char → List α} {table : Table (List α)} {out : List α} :
    renderWith spell table f = .ok out ↔
      (scan f).endsAlone = false ∧
        (∀ key, .field key ∈ parts f → ∃ v, table.lookup [key] = some v) ∧
        fill spell (fun key => (table.lookup [key]).getD []) (parts f) = out := by
  have hfill (hend : (scan f).endsAlone = false)
      (hfields : ∀ key, .field key ∈ parts f → ∃ v, table.lookup [key] = some v) :
      renderWith spell table f =
        .ok (fill spell (fun key => (table.lookup [key]).getD []) (parts f)) := by
    apply renderWith_eq_fill hend
    intro key hkey
    obtain ⟨v, hv⟩ := hfields key hkey
    rw [hv, Option.getD_some]
  constructor
  · intro h
    obtain ⟨hend, hparts⟩ := read_eq_ok_iff.mp h
    have hfields : ∀ key, .field key ∈ parts f → ∃ v, table.lookup [key] = some v := by
      intro key hkey
      obtain ⟨-, v, hv⟩ := exists_of_readParts hparts _ hkey
      simp only [Table.find] at hv
      split at hv
      next w hw => exact ⟨w, hw⟩
      next => cases hv
    exact ⟨hend, hfields, Except.ok.inj ((hfill hend hfields).symm.trans h)⟩
  · rintro ⟨hend, hfields, rfl⟩
    exact hfill hend hfields

theorem render_eq_ok_iff {values : Table Text} {out : Text} :
    render values f = .ok out ↔
      checkPercent values = .ok () ∧ renderWith (fun c => [c]) values f = .ok out := by
  rw [render]
  constructor
  · intro h
    cases hpercent : checkPercent values with
    | error cause =>
      rw [hpercent] at h
      cases h
    | ok u =>
      rw [hpercent] at h
      exact ⟨rfl, h⟩
  · rintro ⟨hpercent, h⟩
    rw [hpercent]
    exact h

section

variable (hf : (scan f).endsAlone = false) (g : Text)

include hf

/-- Behind a format with nothing left over at its end, scanning starts afresh. -/
theorem scan_append :
    scan (f ++ g) = ⟨(scan f).tokens ++ (scan g).tokens, (scan g).endsAlone⟩ := by
  have hspells : Spells (scan f).tokens f := spells_iff.mpr (by rw [← hf])
  have happend := scan_write_append hspells.plain g
  rwa [hspells.write_eq] at happend

theorem parts_append : parts (f ++ g) = parts f ++ parts g := by
  rw [parts, scan_append hf, List.map_append, parts, parts]

/-- Two formats are rendered one behind the other if both of them can be, and only then. -/
theorem renderWith_append {spell : Char → List α} {table : Table (List α)} {out : List α} :
    renderWith spell table (f ++ g) = .ok out ↔
      ∃ a b, renderWith spell table f = .ok a ∧ renderWith spell table g = .ok b ∧
        out = a ++ b := by
  simp only [renderWith_eq_ok_iff, scan_append hf, parts_append hf, fill_append, List.mem_append,
    or_imp, forall_and]
  constructor
  · rintro ⟨hend, ⟨hfront, hback⟩, rfl⟩
    exact ⟨_, _, ⟨hf, hfront, rfl⟩, ⟨hend, hback, rfl⟩, rfl⟩
  · rintro ⟨_, _, ⟨-, hfront, rfl⟩, ⟨hend, hback, rfl⟩, rfl⟩
    exact ⟨hend, ⟨hfront, hback⟩, rfl⟩

theorem render_append {values : Table Text} {out : Text} :
    render values (f ++ g) = .ok out ↔
      ∃ a b, render values f = .ok a ∧ render values g = .ok b ∧ out = a ++ b := by
  simp only [render_eq_ok_iff, renderWith_append hf]
  constructor
  · rintro ⟨hpercent, a, b, ha, hb, hout⟩
    exact ⟨a, b, ⟨hpercent, ha⟩, ⟨hpercent, hb⟩, hout⟩
  · rintro ⟨a, b, ⟨hpercent, ha⟩, ⟨-, hb⟩, hout⟩
    exact ⟨hpercent, a, b, ha, hb, hout⟩

/-- The second format adds the keys that the first one does not use. -/
theorem keys_append {ks : List Char} :
    keys (f ++ g) = .ok ks ↔
      ∃ a b, keys f = .ok a ∧ keys g = .ok b ∧ ks = a ++ b.filter (· ∉ a) := by
  simp only [keys_eq_ok_iff, scan_append hf, parts_append hf, fieldKeys, List.filterMap_append,
    eraseDups_append_eq_filter]
  constructor
  · rintro ⟨hend, rfl⟩
    exact ⟨_, _, ⟨hf, rfl⟩, ⟨hend, rfl⟩, rfl⟩
  · rintro ⟨_, _, ⟨-, rfl⟩, ⟨hend, rfl⟩, rfl⟩
    exact ⟨hend, rfl⟩

end

/-- A scanner is done after its tokens exactly if nothing is left over at the end. -/
theorem yields_done_iff {ts : List Token} :
    (Scanner.new f).Yields ts .done ↔ (scan f).endsAlone = false ∧ ts = (scan f).tokens := by
  rw [Scanner.yields_iff, Scanner.ending, and_comm]
  simp only [Scanner.new]
  by_cases hend : (scan f).endsAlone = true
  · simp [hend]
  · simp [hend]

/-- A scanner of two formats hands out the tokens of the first one, and then goes on as a scanner of
the second one does; only a failure tells of both formats. -/
theorem yields_append (hf : (scan f).endsAlone = false) (g : Text) {vs : List Token}
    {b : Answer} :
    (Scanner.new (f ++ g)).Yields vs b ↔
      ∃ us a, (Scanner.new g).Yields us a ∧ vs = (scan f).tokens ++ us ∧
        b = if a = .done then .done else .failed (.malformedFormat (f ++ g)) := by
  have hending : (Scanner.new (f ++ g)).ending =
      if (Scanner.new g).ending = .done then .done else .failed (.malformedFormat (f ++ g)) := by
    simp only [Scanner.ending, Scanner.new, scan_append hf]
    by_cases hend : (scan g).endsAlone = true
    · simp [hend]
    · simp [hend]
  have htokens : (scan (Scanner.new (f ++ g)).rest).tokens = (scan f).tokens ++ (scan g).tokens :=
    congrArg Scan.tokens (scan_append hf g)
  simp only [Scanner.yields_iff, hending, htokens]
  constructor
  · rintro ⟨rfl, rfl⟩
    exact ⟨_, _, ⟨rfl, rfl⟩, rfl, rfl⟩
  · rintro ⟨_, _, ⟨rfl, rfl⟩, rfl, rfl⟩
    exact ⟨rfl, rfl⟩

/-- If a format is scanned to the end without failure, then another one behind it is read on its
own: its tokens follow, and the scan fails at the end exactly if that of the other format does. The
two are rendered, and made into globs, one behind the other, and only if both of them can be; the
keys of the second one that the first one does not use come after those of the first one. -/
theorem readings_append {ts : List Token} (hf : (Scanner.new f).Yields ts .done) (g : Text) :
    (∀ vs b, (Scanner.new (f ++ g)).Yields vs b ↔
        ∃ us a, (Scanner.new g).Yields us a ∧ vs = ts ++ us ∧
          b = if a = .done then .done else .failed (.malformedFormat (f ++ g))) ∧
      (∀ values out, render values (f ++ g) = .ok out ↔
        ∃ a b, render values f = .ok a ∧ render values g = .ok b ∧ out = a ++ b) ∧
      (∀ out, globPattern (f ++ g) = .ok out ↔
        ∃ a b, globPattern f = .ok a ∧ globPattern g = .ok b ∧ out = a ++ b) ∧
      ∀ ks, keys (f ++ g) = .ok ks ↔
        ∃ a b, keys f = .ok a ∧ keys g = .ok b ∧ ks = a ++ b.filter (· ∉ a) := by
  obtain ⟨hend, rfl⟩ := yields_done_iff.mp hf
  exact ⟨fun _ _ => yields_append hend g, fun _ _ => render_append hend g,
    fun _ => renderWith_append hend g, fun _ => keys_append hend g⟩

/-- Where percent signs meet, those at the end of the first format stay together; a key that both of
them use is listed once. -/
theorem readings_append_percent :
    (Scanner.new ['%', 's', '%', '%']).Yields [.placeholder 's', .placeholder '%'] .done ∧
      (Scanner.new (['%', 's', '%', '%'] ++ ['%', 'e', '%', 's', '%'])).Yields
        ([.placeholder 's', .placeholder '%'] ++ [.placeholder 'e', .placeholder 's'])
        (.failed (.malformedFormat ['%', 's', '%', '%', '%', 'e', '%', 's', '%'])) ∧
      render (caseTable ['a'] .input) (['%', 's', '%', '%'] ++ ['%', 'e', '%', 's']) =
        .ok (['a', '%'] ++ ['i', 'n', 'a']) ∧
      keys (['%', 's', '%', '%'] ++ ['%', 'e', '%', 's']) = .ok ['s', 'e'] := by
  have hf : (Scanner.new ['%', 's', '%', '%']).Yields [.placeholder 's', .placeholder '%'] .done :=
    yields_done_iff.mpr ⟨rfl, rfl⟩
  obtain ⟨hyields, -, -, -⟩ := readings_append hf ['%', 'e', '%', 's', '%']
  obtain ⟨-, hrender, -, hkeys⟩ := readings_append hf ['%', 'e', '%', 's']
  refine ⟨hf, (hyields _ _).mpr ⟨_, _, Scanner.yields_iff.mpr ⟨rfl, rfl⟩, rfl, rfl⟩, ?_, ?_⟩
  · exact (hrender _ _).mpr ⟨_, _, rfl, rfl, rfl⟩
  · exact (hkeys _).mpr ⟨_, _, rfl, rfl, rfl⟩

end CaseFiles.Format
