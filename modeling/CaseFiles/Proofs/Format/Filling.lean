import CaseFiles.Association
import CaseFiles.Format.Render
import CaseFiles.Format.Validate

/-!
# Filling in the parts of a format

Once the end of a format is known to be in order and every field to have a value, rendering is the
concatenation of what the parts become. Main statements: rendering is filling in
(`renderWith_eq_fill`), a format locates test cases exactly if its fields are `%s` and `%e`, both of
them used (`validate_eq_ok_iff`), and it is then rendered for every slot (`render_caseTable`).
-/

namespace CaseFiles

namespace Format

variable {α β : Type}

/-- What one part becomes when characters are spelled and fields have values. -/
def fillPart (spell value : Char → List α) : Part → List α
  | .text c => spell c
  | .field key => value key

/-- What the parts become together. -/
def fill (spell value : Char → List α) (ps : List Part) : List α :=
  ps.flatMap (fillPart spell value)

/-- The values of the two fields of a test case. -/
def caseValue (name ext : List α) (key : Char) : List α := if key = 's' then name else ext

@[simp] theorem fill_nil (spell value : Char → List α) : fill spell value [] = [] := rfl

@[simp] theorem fill_text (spell value : Char → List α) (c : Char) (ps : List Part) :
    fill spell value (.text c :: ps) = spell c ++ fill spell value ps := rfl

@[simp] theorem fill_field (spell value : Char → List α) (key : Char) (ps : List Part) :
    fill spell value (.field key :: ps) = value key ++ fill spell value ps := rfl

@[simp] theorem fill_append (spell value : Char → List α) (ps qs : List Part) :
    fill spell value (ps ++ qs) = fill spell value ps ++ fill spell value qs :=
  List.flatMap_append

@[simp] theorem caseValue_name (name ext : List α) : caseValue name ext 's' = name := rfl

@[simp] theorem caseValue_ext (name ext : List α) : caseValue name ext 'e' = ext := rfl

/-- Only the values of the fields that occur matter. -/
theorem fill_congr {spell v w : Char → List α} {ps : List Part}
    (h : ∀ key, .field key ∈ ps → v key = w key) : fill spell v ps = fill spell w ps := by
  induction ps with
  | nil => rfl
  | cons p ps ih =>
    have hps := ih fun key hk => h key (List.mem_cons_of_mem p hk)
    cases p with
    | text c => rw [fill_text, fill_text, hps]
    | field key => rw [fill_field, fill_field, hps, h key List.mem_cons_self]

/-- Plain characters become what they are spelled as. -/
theorem fill_texts (spell value : Char → List α) (t : Text) :
    fill spell value (t.map .text) = t.flatMap spell := by
  induction t with
  | nil => rfl
  | cons c t ih => rw [List.map_cons, fill_text, ih, List.flatMap_cons]

/-- A text that is filled in and then spelled is filled in with spelled values. -/
theorem flatMap_fill (spell : Char → List α) (value : Char → Text) (ps : List Part) :
    (fill (fun c => [c]) value ps).flatMap spell =
      fill spell (fun key => (value key).flatMap spell) ps := by
  induction ps with
  | nil => rfl
  | cons p ps ih =>
    cases p with
    | text c => rw [fill_text, fill_text, List.singleton_append, List.flatMap_cons, ih]
    | field key => rw [fill_field, fill_field, List.flatMap_append, ih]

theorem mem_fieldKeys {key : Char} {ps : List Part} :
    key ∈ fieldKeys ps ↔ .field key ∈ ps := by
  rw [fieldKeys, List.mem_eraseDups, List.mem_filterMap]
  constructor
  · rintro ⟨p, hp, hk⟩
    cases p with
    | text c => exact nomatch hk
    | field k => rwa [← Option.some.inj hk]
  · intro h
    exact ⟨_, h, rfl⟩

theorem checkEnd_eq_ok_iff {f : Text} : checkEnd f = .ok () ↔ (scan f).endsAlone = false := by
  unfold checkEnd
  cases (scan f).endsAlone <;> simp

/-- The keys of a format whose end is in order are those of its fields. -/
theorem keys_eq_ok_iff {f : Text} {ks : List Char} :
    keys f = .ok ks ↔ (scan f).endsAlone = false ∧ ks = fieldKeys (parts f) := by
  unfold keys checkEnd
  cases (scan f).endsAlone with
  | false =>
    refine ⟨fun h => ⟨rfl, ?_⟩, fun h => ?_⟩
    · exact (Except.ok.inj h).symm
    · rw [h.2]
      rfl
  | true =>
    refine ⟨fun h => ?_, fun h => ?_⟩
    · exact nomatch h
    · exact nomatch h.1

/-- A reading in which no part fails strings together what the parts become. -/
theorem readParts_eq_flatMap {emit : List Char → Part → Except Error (List α)}
    {out : Part → List α} {ps : List Part} (h : ∀ p ∈ ps, ∀ seen, emit seen p = .ok (out p))
    (seen : List Char) : readParts emit seen ps = .ok (ps.flatMap out) := by
  induction ps generalizing seen with
  | nil => rfl
  | cons p ps ih =>
    have hps := ih (fun q hq => h q (List.mem_cons_of_mem p hq)) (p.key?.toList ++ seen)
    rw [readParts, h p List.mem_cons_self seen, hps]
    rfl

/-- Parts are read exactly if the first of them is and the others are. -/
theorem readParts_cons_eq_ok_iff {emit : List Char → Part → Except Error (List α)}
    {seen : List Char} {p : Part} {ps : List Part} {out : List α} :
    readParts emit seen (p :: ps) = .ok out ↔
      ∃ front back, emit seen p = .ok front ∧
        readParts emit (p.key?.toList ++ seen) ps = .ok back ∧ front ++ back = out := by
  rw [readParts]
  cases emit seen p with
  | error cause => simp [bind, Except.bind]
  | ok front =>
    cases readParts emit (p.key?.toList ++ seen) ps with
    | error cause => simp [bind, Except.bind]
    | ok back => simp [bind, Except.bind, pure, Except.pure]

/-- A reading succeeds exactly if the end of the format is in order and the parts can be read. -/
theorem read_eq_ok_iff {emit : List Char → Part → Except Error (List α)} {f : Text}
    {out : List α} :
    read emit f = .ok out ↔
      (scan f).endsAlone = false ∧ readParts emit [] (parts f) = .ok out := by
  rw [read, ← checkEnd_eq_ok_iff]
  cases readParts emit [] (parts f) with
  | error cause => simp [bind, Except.bind]
  | ok rest =>
    cases checkEnd f with
    | error cause => simp [bind, Except.bind]
    | ok u => simp [bind, Except.bind, pure, Except.pure]

/-- Rendering with a table that knows every field is filling in. -/
theorem renderWith_eq_fill {spell value : Char → List α} {table : Table (List α)} {f : Text}
    (he : (scan f).endsAlone = false)
    (ht : ∀ key, .field key ∈ parts f → table.lookup [key] = some (value key)) :
    renderWith spell table f = .ok (fill spell value (parts f)) := by
  refine read_eq_ok_iff.mpr ⟨he, readParts_eq_flatMap (fun p hp _ => ?_) []⟩
  cases p with
  | text c => rfl
  | field key => simp only [Table.find, ht key hp, fillPart]

/-- A field comes of the placeholder for its key, and the percent sign is never the key of one. -/
theorem part_eq_field_iff {t : Token} {key : Char} :
    t.part = .field key ↔ t = .placeholder key ∧ key ≠ '%' := by
  cases t with
  | literal c => simp [Token.part]
  | placeholder k =>
    rw [Token.part, Token.placeholder.injEq]
    split
    next hk => simp [hk, eq_comm]
    next hk =>
      rw [Part.field.injEq]
      exact ⟨fun he => ⟨he, he ▸ hk⟩, And.left⟩

/-- The percent sign is never the key of a field. -/
theorem percent_notMem_fieldKeys (f : Text) : '%' ∉ fieldKeys (parts f) := by
  rw [mem_fieldKeys]
  intro h
  obtain ⟨t, -, ht⟩ := List.mem_map.mp h
  exact (part_eq_field_iff.mp ht).2 rfl

/-- A reading of the parts commutes with what strings together well. -/
theorem readParts_map {g : List α → List β} (hnil : g [] = [])
    (happend : ∀ a b, g (a ++ b) = g a ++ g b) {emit : List Char → Part → Except Error (List α)}
    {emit' : List Char → Part → Except Error (List β)}
    (h : ∀ seen p, emit' seen p = (emit seen p).map g) (seen : List Char) (ps : List Part) :
    readParts emit' seen ps = (readParts emit seen ps).map g := by
  induction ps generalizing seen with
  | nil => exact congrArg Except.ok hnil.symm
  | cons p ps ih =>
    rw [readParts, readParts, h, ih]
    cases emit seen p with
    | error cause => rfl
    | ok out =>
      cases readParts emit (p.key?.toList ++ seen) ps with
      | error cause => rfl
      | ok rest => exact congrArg Except.ok (happend out rest).symm

/-- To render texts and take the units is to render their units. -/
theorem renderWith_units (values : Table Text) (f : Text) :
    renderWith Text.charUnits (values.map fun p => (p.1, p.2.units)) f =
      (renderWith (fun c => [c]) values f).map Text.units := by
  rw [renderWith, renderWith, read, read,
    readParts_map Text.units_nil Text.units_append fun _ p => ?_]
  · cases readParts _ [] (parts f) with
    | error cause => rfl
    | ok out => cases checkEnd f <;> rfl
  · cases p with
    | text c => simp [Except.map, Text.units]
    | field key =>
      simp only [Table.find, lookup_map_value]
      cases values.lookup [key] <;> rfl

/-- What is rendered into the units of a text is rendered into the text, unless the table redefines
the percent sign. -/
theorem render_of_renderWith {values : Table Text} {f t : Text}
    (hpercent : values.lookup ['%'] = none)
    (h : renderWith Text.charUnits (values.map fun p => (p.1, p.2.units)) f = .ok t.units) :
    render values f = .ok t := by
  rw [renderWith_units] at h
  rw [render, checkPercent, hpercent]
  cases hout : renderWith (fun c => [c]) values f with
  | error cause =>
    rw [hout] at h
    exact nomatch h
  | ok out =>
    rw [hout] at h
    exact congrArg Except.ok (Text.units_injective (Except.ok.inj h))

/-- In a table with a row for each key, under names that tell the keys apart, each key is found. -/
theorem lookup_map_key {γ : Type} [BEq β] [LawfulBEq β] (name : Char → β)
    (hname : ∀ {k l}, name k = name l → k = l) (value : Char → γ) {ks : List Char} {key : Char}
    (h : key ∈ ks) : (ks.map fun k => (name k, value k)).lookup (name key) = some (value key) := by
  induction ks with
  | nil => exact nomatch h
  | cons k ks ih =>
    rw [List.map_cons, List.lookup_cons]
    by_cases hk : key = k
    · rw [hk, beq_self_eq_true]
    · have hne : (name key == name k) = false := beq_eq_false_iff_ne.mpr fun he => hk (hname he)
      rw [hne]
      exact ih ((List.mem_cons.mp h).resolve_left hk)

/-- The table of an assignment of values to the given keys. -/
def assigned (ks : List Char) (value : Char → List α) : Table (List α) :=
  ks.map fun key => ([key], value key)

/-- Rendering with values for all keys of a format is filling in. -/
theorem renderWith_assigned {f : Text} {ks : List Char} (hk : keys f = .ok ks)
    (spell value : Char → List α) :
    renderWith spell (assigned ks value) f = .ok (fill spell value (parts f)) := by
  obtain ⟨he, rfl⟩ := keys_eq_ok_iff.mp hk
  apply renderWith_eq_fill he
  intro key hkey
  exact lookup_map_key (fun k => [k]) (fun h => (List.cons.inj h).1) value
    (mem_fieldKeys.mpr hkey)

theorem mem_caseKeys {key : Char} : key ∈ caseKeys ↔ key = 's' ∨ key = 'e' := by
  rw [caseKeys, List.mem_cons, List.mem_singleton, or_comm]

/-- The checks on the fields of a format that is not empty and whose end is in order. -/
theorem validate_of_keys {f : Text} {used : List Char} (hf : f.isEmpty = false)
    (hk : keys f = .ok used) :
    validate f =
      match used.find? (· ∉ caseKeys) with
      | some key => .error (.undefinedPlaceholder [key] f)
      | none =>
        if 's' ∉ used then .error (.invalidFormat f .noName)
        else if 'e' ∉ used then .error (.invalidFormat f .noExt)
        else .ok () := by
  unfold validate
  rw [hf, hk]
  simp only [Bool.false_eq_true, ite_false, bind, Except.bind]
  cases used.find? (· ∉ caseKeys) with
  | some key => rfl
  | none =>
    by_cases hs : 's' ∈ used <;> by_cases he : 'e' ∈ used <;> simp [hs, he] <;> rfl

/-- A format locates test cases exactly if its end is in order and its fields are the name and the
extension, both of them used. -/
theorem validate_eq_ok_iff {f : Text} :
    validate f = .ok () ↔ (scan f).endsAlone = false ∧
      (∀ key, .field key ∈ parts f → key = 's' ∨ key = 'e') ∧
      .field 's' ∈ parts f ∧ .field 'e' ∈ parts f := by
  cases f with
  | nil => exact ⟨fun h => (nomatch h), fun h => (nomatch h.2.2.1)⟩
  | cons c f =>
    cases hend : (scan (c :: f)).endsAlone with
    | true =>
      have hk : keys (c :: f) = .error (.malformedFormat (c :: f)) := by
        rw [keys, checkEnd, hend]
        rfl
      have hv : validate (c :: f) = .error (.malformedFormat (c :: f)) := by
        rw [validate, hk]
        rfl
      rw [hv]
      exact ⟨fun h => (nomatch h), fun h => (nomatch h.1)⟩
    | false =>
      rw [validate_of_keys rfl (keys_eq_ok_iff.mpr ⟨hend, rfl⟩)]
      have hforeign : (fieldKeys (parts (c :: f))).find? (· ∉ caseKeys) = none ↔
          ∀ key, .field key ∈ parts (c :: f) → key = 's' ∨ key = 'e' := by
        simp only [List.find?_eq_none, mem_fieldKeys, decide_eq_true_eq, Decidable.not_not,
          mem_caseKeys]
      rw [← hforeign, ← mem_fieldKeys, ← mem_fieldKeys]
      cases (fieldKeys (parts (c :: f))).find? (· ∉ caseKeys) with
      | some key => exact ⟨fun h => (nomatch h), fun h => (nomatch h.2.1)⟩
      | none =>
        by_cases hs : 's' ∈ fieldKeys (parts (c :: f)) <;>
          by_cases he : 'e' ∈ fieldKeys (parts (c :: f)) <;> simp [hs, he]

/-- The table of one file of a test case whose name is a row of code units. -/
def caseUnits (name : List CodeUnit) (ext : Ext) : Table (List CodeUnit) :=
  [(['s'], name), (['e'], ext.text.units)]

private theorem lookup_two {name ext : List α} {key : Char} (hk : key = 's' ∨ key = 'e') :
    ([(['s'], name), (['e'], ext)] : Table (List α)).lookup [key] =
      some (caseValue name ext key) := by
  rcases hk with rfl | rfl <;> rfl

/-- A format that locates test cases is rendered for every name and extension. -/
theorem render_caseTable {f : Text} (hf : validate f = .ok ()) (name : Text) (ext : Ext) :
    render (caseTable name ext) f =
      .ok (fill (fun c => [c]) (caseValue name ext.text) (parts f)) := by
  obtain ⟨he, hfields, -, -⟩ := validate_eq_ok_iff.mp hf
  have hr : renderWith (fun c => [c]) (caseTable name ext) f =
      .ok (fill (fun c => [c]) (caseValue name ext.text) (parts f)) :=
    renderWith_eq_fill he fun key hk => lookup_two (hfields key hk)
  rw [render, hr]
  rfl

/-- It is so when names are rows of code units, too. -/
theorem renderWith_caseUnits {f : Text} (hf : validate f = .ok ()) (name : List CodeUnit)
    (ext : Ext) :
    renderWith Text.charUnits (caseUnits name ext) f =
      .ok (fill Text.charUnits (caseValue name ext.text.units) (parts f)) := by
  obtain ⟨he, hfields, -, -⟩ := validate_eq_ok_iff.mp hf
  exact renderWith_eq_fill he fun key hk => lookup_two (hfields key hk)

/-- The units of a filled format are those of its parts. -/
theorem units_fill_caseValue (name ext : Text) (ps : List Part) :
    Text.units (fill (fun c => [c]) (caseValue name ext) ps) =
      fill Text.charUnits (caseValue (Text.units name) (Text.units ext)) ps := by
  have hv : (fun key => (caseValue name ext key).flatMap Text.charUnits) =
      caseValue (Text.units name) (Text.units ext) := by
    funext key
    unfold caseValue
    split <;> rfl
  rw [Text.units, flatMap_fill, hv]

end Format

end CaseFiles
