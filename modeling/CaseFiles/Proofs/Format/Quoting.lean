import CaseFiles.Format.GlobPattern
import CaseFiles.Proofs.Format.Conformance
import CaseFiles.Proofs.Format.Scanning

/-!
# Texts as formats

A text with its percent signs doubled is a format without fields. Each reading of it quotes the
characters one by one, and together they still stand for the text and for nothing else. Main
statement: `readings_quote`.
-/

namespace CaseFiles

namespace Glob

/-- The characters of a glob that have no backslash in front to take away their meaning. -/
def unprotected : Text → Text
  | [] => []
  | ['\\'] => ['\\']
  | '\\' :: _ :: rest => unprotected rest
  | c :: rest => c :: unprotected rest

theorem unprotected_cons {c : Char} (hc : c ≠ '\\') (rest : Text) :
    unprotected (c :: rest) = c :: unprotected rest := by
  rw [unprotected]
  · rintro rfl
    exact absurd rfl hc
  · rintro d _ rfl
    exact absurd rfl hc

/-- All characters of a quoted text that mean something are protected. -/
theorem special_notMem_unprotected_quote (t : Text) :
    ∀ c ∈ special, c ∉ unprotected (quote t) := by
  induction t with
  | nil => exact fun _ _ => List.not_mem_nil
  | cons d t ih =>
    intro c hc
    rw [quote, List.flatMap_cons, ← quote, quoteChar]
    split
    next => exact ih c hc
    next hd =>
      have hbackslash : d ≠ '\\' := fun he => hd (by simp [special, he])
      rw [List.singleton_append, unprotected_cons hbackslash, List.mem_cons, not_or]
      exact ⟨fun he => hd (he ▸ hc), ih c hc⟩

end Glob

namespace Format

/-- The format that stands for a text: its percent signs are doubled. -/
def quote (t : Text) : Text := t.flatMap writeChar

/-- A quoted text is what its characters write. -/
theorem written_texts (t : Text) : written (t.map .text) = quote t := fill_texts writeChar _ t

/-- Characters that stand for themselves are no fields. -/
theorem field_notMem_texts (t : Text) (key : Char) : .field key ∉ t.map Part.text := by
  simp

/-- The parts of a quoted text are its characters. -/
theorem parts_quote (t : Text) : parts (quote t) = t.map .text := by
  rw [← written_texts, parts_written (field_notMem_texts t '%')]

/-- Nothing is left over at the end of a quoted text. -/
theorem endsAlone_quote (t : Text) : (scan (quote t)).endsAlone = false := by
  rw [← written_texts, scan_written]

theorem field_notMem_quote (t : Text) (key : Char) : .field key ∉ parts (quote t) :=
  parts_quote t ▸ field_notMem_texts t key

theorem fieldKeys_texts (t : Text) : fieldKeys (t.map .text) = [] :=
  List.eq_nil_iff_forall_not_mem.mpr fun key hkey =>
    field_notMem_texts t key (mem_fieldKeys.mp hkey)

/-- A quoted text is rendered into what its characters are spelled as, with any table. -/
theorem renderWith_quote {α : Type} (spell : Char → List α) (table : Table (List α)) (t : Text) :
    renderWith spell table (quote t) = .ok (t.flatMap spell) := by
  rw [← fill_texts spell (fun _ => []), ← parts_quote]
  exact renderWith_eq_fill (endsAlone_quote t) fun key hkey =>
    absurd hkey (field_notMem_quote t key)

/-- The source of characters is their quotation, whatever fragments there are for fields. -/
theorem source_quoted (frag : Char → Regex.Fragment .choice) (t : Text) :
    source frag [] (t.map .text) = Regex.quote t := by
  have hsource := source_texts frag [] t []
  rwa [List.append_nil, source, List.append_nil] at hsource

/-- The pattern of a quoted text is the text quoted for a regular expression. -/
theorem pattern_quote (table : Table Text) (t : Text) :
    pattern table (quote t) = .ok ⟨Regex.quote t, []⟩ := by
  have hpattern : pattern table (quote t) = _ :=
    pattern_eq (fun _ => .only .empty) (endsAlone_quote t) fun key hkey =>
      absurd hkey (field_notMem_quote t key)
  rw [hpattern, parts_quote, source_quoted, fieldKeys_texts]
  rfl

/-- A text quoted for a regular expression and put between the anchors matches the units of the text
and no others. -/
theorem capture_quote (t : Text) (us : List CodeUnit) :
    Regex.capture (Regex.anchored (Regex.quote t)) us =
      .ok (if us = t.units then some fun _ => none else none) := by
  rw [← source_quoted fun _ => .only .empty, capture_source, groupTable, fieldKeys_texts]
  apply congrArg Except.ok
  by_cases hus : us = t.units
  · have hsome : ((expression (fun _ => .only .empty) (t.map .text)).exec us).isSome = true := by
      rw [hus, Text.units, ← fill_texts Text.charUnits fun _ => []]
      exact exec_complete fun key hkey => absurd hkey (field_notMem_texts t key)
    obtain ⟨kept, hkept⟩ := Option.isSome_iff_exists.mp hsome
    rw [hkept, if_pos hus]
    rfl
  · cases hkept : (expression (fun _ => .only .empty) (t.map .text)).exec us with
    | none => rw [if_neg hus]; rfl
    | some kept =>
      obtain ⟨v, -, hfill⟩ := exec_sound hkept
      rw [fill_texts] at hfill
      exact absurd hfill hus

/-- A text conforms to a quoted text only if it is the same. -/
theorem parse_quote (table : Table Text) (t u : Text) :
    parse table (quote t) u = .ok (if u = t then some [] else none) := by
  rw [parse, pattern_quote]
  change (Regex.capture (Regex.anchored (Regex.quote t)) u.units >>= _) = _
  rw [capture_quote]
  by_cases hu : u = t
  · rw [if_pos hu, if_pos (congrArg Text.units hu)]
    rfl
  · rw [if_neg hu, if_neg fun h => hu (Text.units_injective h)]
    rfl

/-- A quoted text is rendered into the text, conforms to nothing else, not even to units that are no
text, and is a glob without stars that stands for the text. -/
theorem readings_quote (t : Text) {values : Table Text}
    (hpercent : ∀ v, values.lookup ['%'] = some v → v = ['%']) :
    render values (quote t) = .ok t ∧
      (∀ fragments u, parse fragments (quote t) u = .ok (if u = t then some [] else none)) ∧
      (∀ fragments, ∃ p, pattern fragments (quote t) = .ok p ∧
        ∀ us, Regex.capture (Regex.anchored p.source) us =
          .ok (if us = t.units then some fun _ => none else none)) ∧
      ∃ g, globPattern (quote t) = .ok g ∧ (∀ c ∈ Glob.special, c ∉ Glob.unprotected g) ∧
        Glob.unquote g = t := by
  refine ⟨?_, fun fragments u => parse_quote fragments t u,
    fun fragments => ⟨_, pattern_quote fragments t, capture_quote t⟩,
    Glob.quote t, renderWith_quote Glob.quoteChar globTable t,
    Glob.special_notMem_unprotected_quote t, Glob.unquote_quote t⟩
  have hcheck : checkPercent values = .ok () := by
    unfold checkPercent
    split
    next v hv => rw [if_pos (hpercent v hv)]
    next => rfl
  rw [render, hcheck]
  change renderWith _ values (quote t) = _
  rw [renderWith_quote, List.flatMap_singleton']

/-- With a table that defines the percent sign, the text `%s\[` with a character outside of the basic
plane behind it is read by its quotation. -/
theorem readings_quote_pair :
    (∀ v, List.lookup ['%'] [(['%'], ['%'])] = some v → v = ['%']) ∧
      render [(['%'], ['%'])] ['%', '%', 's', '\\', '[', '😀'] =
        .ok ['%', 's', '\\', '[', '😀'] ∧
      parse [] ['%', '%', 's', '\\', '[', '😀'] ['%', 's', '\\', '[', '😀'] = .ok (some []) ∧
      ∃ g, globPattern ['%', '%', 's', '\\', '[', '😀'] = .ok g ∧
        Glob.unquote g = ['%', 's', '\\', '[', '😀'] := by
  have hpercent : ∀ v, List.lookup ['%'] [(['%'], ['%'])] = some v → v = ['%'] :=
    fun v hv => (Option.some.inj hv).symm
  obtain ⟨hrender, hparse, -, g, hg, -, hunquote⟩ :=
    readings_quote ['%', 's', '\\', '[', '😀'] hpercent
  exact ⟨hpercent, hrender, hparse [] _, g, hg, hunquote⟩

end Format

end CaseFiles
