import CaseFiles.Proofs.Distinct
import CaseFiles.Proofs.Format.Scanning

/-!
# The grammar of formats

What is wrong with a format is told by the tokens that spell it: whether there are any, which of them
is the first without a meaning, and which ones are missing. A format is spelled in one way at most, so
the first fault in this order is the one that a check reports, although the check looks only at the
distinct keys of the fields. Main statement: `validate_eq_iff_diagnosis`.
-/

namespace CaseFiles

/-- Every character stands for itself, and of the placeholders these three have a meaning. -/
def Token.Known : Token → Prop
  | literal _ => True
  | placeholder key => key = '%' ∨ key = 's' ∨ key = 'e'

instance (t : Token) : Decidable t.Known :=
  match t with
  | .literal _ => .isTrue trivial
  | .placeholder key => inferInstanceAs (Decidable (key = '%' ∨ key = 's' ∨ key = 'e'))

namespace Format

/-- What comes of checking a format, by the tokens that spell it. Where one constructor applies, those
before it do not. -/
inductive Diagnosis (f : Text) : Except Error Unit → Prop
  | empty : f = [] → Diagnosis f (.error (.invalidFormat f .notText))
  | malformed : f ≠ [] → (∀ ts, ¬ Spells ts f) → Diagnosis f (.error (.malformedFormat f))
  | foreign {front back : List Token} {key : Char} :
    Spells (front ++ .placeholder key :: back) f → (∀ t ∈ front, t.Known) →
    ¬ (Token.placeholder key).Known → Diagnosis f (.error (.undefinedPlaceholder [key] f))
  | noName {ts : List Token} : f ≠ [] → Spells ts f → (∀ t ∈ ts, t.Known) →
    .placeholder 's' ∉ ts → Diagnosis f (.error (.invalidFormat f .noName))
  | noExt {ts : List Token} : Spells ts f → (∀ t ∈ ts, t.Known) → .placeholder 's' ∈ ts →
    .placeholder 'e' ∉ ts → Diagnosis f (.error (.invalidFormat f .noExt))
  | sound {ts : List Token} : Spells ts f → (∀ t ∈ ts, t.Known) → .placeholder 's' ∈ ts →
    .placeholder 'e' ∈ ts → Diagnosis f (.ok ())

/-- Every format has a diagnosis. -/
theorem exists_diagnosis (f : Text) : ∃ r, Diagnosis f r := by
  by_cases hempty : f = []
  · exact ⟨_, .empty hempty⟩
  by_cases hspells : ∃ ts, Spells ts f
  · obtain ⟨ts, hts⟩ := hspells
    cases hfirst : ts.find? (¬ Token.Known ·) with
    | some t =>
      obtain ⟨ht, front, back, rfl, hfront⟩ := List.find?_eq_some_iff_append.mp hfirst
      cases t with
      | literal c => exact absurd trivial (of_decide_eq_true ht)
      | placeholder key =>
        exact ⟨_, .foreign hts (fun t ht => by simpa using hfront t ht) (of_decide_eq_true ht)⟩
    | none =>
      have hknown : ∀ t ∈ ts, t.Known := by simpa using hfirst
      by_cases hs : .placeholder 's' ∈ ts
      · by_cases he : .placeholder 'e' ∈ ts
        · exact ⟨_, .sound hts hknown hs he⟩
        · exact ⟨_, .noExt hts hknown hs he⟩
      · exact ⟨_, .noName hempty hts hknown hs⟩
  · exact ⟨_, .malformed hempty fun ts hts => hspells ⟨ts, hts⟩⟩

variable {f : Text} {ts : List Token}

/-- The keys of a format are those of the tokens that spell it. -/
theorem keys_of_spells (h : Spells ts f) : keys f = .ok (fieldKeys (ts.map Token.part)) := by
  have hscan := spells_iff.mp h
  exact keys_eq_ok_iff.mpr ⟨by rw [hscan], by rw [parts, hscan]⟩

/-- A key other than the percent sign is used if there is a placeholder for it. -/
theorem mem_fieldKeys_tokens {key : Char} :
    key ∈ fieldKeys (ts.map Token.part) ↔ .placeholder key ∈ ts ∧ key ≠ '%' := by
  simp only [mem_fieldKeys, List.mem_map, part_eq_field_iff]
  constructor
  · rintro ⟨t, ht, rfl, hkey⟩
    exact ⟨ht, hkey⟩
  · exact fun h => ⟨_, h.1, rfl, h.2⟩

/-- If all tokens have a meaning, then no key is foreign. -/
theorem find?_foreign_eq_none (h : ∀ t ∈ ts, t.Known) :
    (fieldKeys (ts.map Token.part)).find? (· ∉ caseKeys) = none := by
  rw [List.find?_eq_none]
  intro key hkey
  obtain ⟨hmem, hne⟩ := mem_fieldKeys_tokens.mp hkey
  have hknown : key = '%' ∨ key = 's' ∨ key = 'e' := h _ hmem
  have hcase : key ∈ caseKeys := by simpa [mem_caseKeys, hne] using hknown
  simpa using hcase

/-- The first token without a meaning has the first foreign key. -/
theorem find?_foreign_eq_some {front back : List Token} {key : Char} (h : ∀ t ∈ front, t.Known)
    (hkey : ¬ (Token.placeholder key).Known) :
    (fieldKeys ((front ++ .placeholder key :: back).map Token.part)).find? (· ∉ caseKeys) =
      some key := by
  obtain ⟨hpercent, hs, he⟩ : key ≠ '%' ∧ key ≠ 's' ∧ key ≠ 'e' := by
    simpa [Token.Known] using hkey
  have hfront := find?_foreign_eq_none h
  have hpart : (Token.placeholder key).part = .field key := part_eq_field_iff.mpr ⟨rfl, hpercent⟩
  have hforeign : key ∉ caseKeys := by simp [mem_caseKeys, hs, he]
  rw [fieldKeys, find?_eraseDups] at hfront ⊢
  rw [List.map_append, List.map_cons, hpart, List.filterMap_append, List.find?_append, hfront,
    Option.none_or, List.filterMap_cons_some (by rfl), List.find?_cons_of_pos (by simpa)]

/-- A format that is spelled by some token is not empty. -/
theorem Spells.ne_nil {t : Token} (h : Spells ts f) (ht : t ∈ ts) : f ≠ [] := by
  rintro rfl
  have hnil := List.flatMap_eq_nil_iff.mp h.write_eq t ht
  cases t <;> cases hnil

/-- A format is refused because of the first token without a meaning. -/
theorem validate_of_foreign {front back : List Token} {key : Char} (hf : f ≠ [])
    (h : Spells (front ++ .placeholder key :: back) f) (hfront : ∀ t ∈ front, t.Known)
    (hkey : ¬ (Token.placeholder key).Known) :
    validate f = .error (.undefinedPlaceholder [key] f) := by
  rw [validate_of_keys (List.isEmpty_eq_false_iff.mpr hf) (keys_of_spells h),
    find?_foreign_eq_some hfront hkey]

/-- If all tokens have a meaning, then it matters only whether those of a slot are among them. -/
theorem validate_of_known (hf : f ≠ []) (h : Spells ts f) (hknown : ∀ t ∈ ts, t.Known) :
    validate f =
      if .placeholder 's' ∉ ts then .error (.invalidFormat f .noName)
      else if .placeholder 'e' ∉ ts then .error (.invalidFormat f .noExt)
      else .ok () := by
  rw [validate_of_keys (List.isEmpty_eq_false_iff.mpr hf) (keys_of_spells h),
    find?_foreign_eq_none hknown]
  simp [mem_fieldKeys_tokens]

/-- A format that no tokens spell is malformed at its end. -/
theorem validate_of_not_spells (hf : f ≠ []) (h : ∀ ts, ¬ Spells ts f) :
    validate f = .error (.malformedFormat f) := by
  have hend : (scan f).endsAlone = true := by
    cases hscan : (scan f).endsAlone with
    | true => rfl
    | false => exact absurd (spells_iff.mpr (by rw [← hscan])) (h (scan f).tokens)
  have hkeys : keys f = .error (.malformedFormat f) := by
    rw [keys, checkEnd, hend]
    rfl
  rw [validate, List.isEmpty_eq_false_iff.mpr hf, hkeys]
  rfl

/-- A check reports the diagnosis. -/
theorem validate_of_diagnosis {r : Except Error Unit} (h : Diagnosis f r) : validate f = r := by
  cases h with
  | empty hf =>
    subst hf
    rfl
  | malformed hf hts => exact validate_of_not_spells hf hts
  | foreign hts hfront hkey =>
    have hf := hts.ne_nil (List.mem_append_right _ List.mem_cons_self)
    exact validate_of_foreign hf hts hfront hkey
  | noName hf hts hknown hs => rw [validate_of_known hf hts hknown, if_pos hs]
  | noExt hts hknown hs he =>
    rw [validate_of_known (hts.ne_nil hs) hts hknown, if_neg (not_not_intro hs), if_pos he]
  | sound hts hknown hs he =>
    rw [validate_of_known (hts.ne_nil hs) hts hknown, if_neg (not_not_intro hs),
      if_neg (not_not_intro he)]

/-- The tokens of formats that locate test cases. -/
theorem known_iff {t : Token} :
    (t ≠ .literal '%' ∧ t.Known) ↔ (∃ c ≠ '%', t = .literal c) ∨
      t = .placeholder '%' ∨ t = .placeholder 's' ∨ t = .placeholder 'e' := by
  cases t with
  | literal c => simp [Token.Known]
  | placeholder key => simp [Token.Known]

/-- A check of a format reports its diagnosis and nothing else. In particular a format is accepted
exactly if it is spelled by characters other than the percent sign and by the placeholders `%%`, `%s`
and `%e`, with both of the last two among them. -/
theorem validate_eq_iff_diagnosis (f : Text) :
    (∀ r, validate f = r ↔ Diagnosis f r) ∧
      (validate f = .ok () ↔ ∃ ts : List Token, write ts = f ∧
        (∀ t ∈ ts, (∃ c ≠ '%', t = .literal c) ∨
          t = .placeholder '%' ∨ t = .placeholder 's' ∨ t = .placeholder 'e') ∧
        .placeholder 's' ∈ ts ∧ .placeholder 'e' ∈ ts) := by
  have hdiagnosis r : validate f = r ↔ Diagnosis f r := by
    refine ⟨?_, validate_of_diagnosis⟩
    rintro rfl
    obtain ⟨r, hr⟩ := exists_diagnosis f
    exact validate_of_diagnosis hr ▸ hr
  refine ⟨hdiagnosis, ?_⟩
  rw [hdiagnosis]
  constructor
  · rintro (_ | _ | _ | _ | _ | ⟨hts, hknown, hs, he⟩)
    exact ⟨_, hts.write_eq, fun t ht =>
      known_iff.mp ⟨ne_of_mem_of_not_mem ht hts.plain, hknown t ht⟩, hs, he⟩
  · rintro ⟨ts, hwrite, hts, hs, he⟩
    exact .sound ⟨hwrite, fun hmem => (known_iff.mpr (hts _ hmem)).1 rfl⟩
      (fun t ht => (known_iff.mpr (hts t ht)).2) hs he

/-- In `%%s` the letter stands for itself, so this format has no place for the name. -/
example : validate ['%', '%', 's', '.', '%', 'e'] =
    .error (.invalidFormat ['%', '%', 's', '.', '%', 'e'] .noName) :=
  rfl

end Format

end CaseFiles
