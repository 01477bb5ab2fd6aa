import CaseFiles.Format.GlobPattern
import CaseFiles.Format.Pattern
import CaseFiles.Proofs.Format.Filling
import CaseFiles.Proofs.Format.Scanning

/-!
# The readings of a format agree

Rendering a format, globbing with it and matching with it give the same verdict on it. The first
field that has no value is refused, even if the end of the format is malformed as well; a format
whose fields all have values is refused exactly if its end is malformed. A pattern asks for the
fragment of a field only where the field comes first, and the check of a format looks at the end
before it looks at the fields, but neither makes a difference to what is accepted. Main statement:
`readings_agree`.
-/

namespace CaseFiles

namespace Format

variable {α : Type}

/-- What a reading makes of a format if it knows the fields with the given keys: it refuses the first
other field, and if there is none, a percent sign that is left over at the end. -/
def verdict (known : List Char) (f : Text) : Except Error Unit :=
  match ((parts f).filterMap Part.key?).find? (· ∉ known) with
  | some key => .error (.undefinedPlaceholder [key] f)
  | none => if percentRun f % 2 = 1 then .error (.malformedFormat f) else .ok ()

/-- What becomes of a format, but for what it is read into. -/
def accepted {β : Type} (reading : Except Error β) : Except Error Unit := reading.map fun _ => ()

/-- What is made of a reading in the end does not matter. -/
theorem accepted_bind_pure {β γ : Type} (reading : Except Error β) (g : β → γ) :
    accepted (reading >>= fun x => pure (g x)) = accepted reading := by
  cases reading <;> rfl

/-- A reading of a format that knows the fields with the given keys: it never fails on anything else,
and it refuses another field where this comes first. -/
structure Knows (known : List Char) (f : Text)
    (emit : List Char → Part → Except Error (List α)) : Prop where
  text (seen : List Char) (c : Char) : ∃ out, emit seen (.text c) = .ok out
  field (seen : List Char) {key : Char} : key ∈ known → ∃ out, emit seen (.field key) = .ok out
  foreign {seen : List Char} {key : Char} : key ∉ known → key ∉ seen →
    emit seen (.field key) = .error (.undefinedPlaceholder [key] f)

/-- The parts of a format are read up to the first field that is not known. -/
theorem Knows.accepted_readParts {known : List Char} {f : Text}
    {emit : List Char → Part → Except Error (List α)} (h : Knows known f emit) (ps : List Part)
    {seen : List Char} (hseen : ∀ key ∈ seen, key ∈ known) :
    accepted (readParts emit seen ps) =
      match (ps.filterMap Part.key?).find? (· ∉ known) with
      | some key => .error (.undefinedPlaceholder [key] f)
      | none => .ok () := by
  induction ps generalizing seen with
  | nil => rfl
  | cons p ps ih =>
    have hgoOn {out : List α} (hp : emit seen p = .ok out) :
        accepted (readParts emit seen (p :: ps)) =
          accepted (readParts emit (p.key?.toList ++ seen) ps) := by
      rw [readParts, hp]
      cases readParts emit (p.key?.toList ++ seen) ps <;> rfl
    cases p with
    | text c =>
      obtain ⟨out, hout⟩ := h.text seen c
      rw [hgoOn hout]
      exact ih hseen
    | field key =>
      have hkeys : (Part.field key :: ps).filterMap Part.key? = key :: ps.filterMap Part.key? := rfl
      by_cases hkey : key ∈ known
      · obtain ⟨out, hout⟩ := h.field seen hkey
        rw [hgoOn hout, hkeys, List.find?_cons_of_neg (by simpa using hkey)]
        refine ih fun k hk => ?_
        rcases List.mem_cons.mp hk with rfl | hk
        · exact hkey
        · exact hseen k hk
      · have hfirst : key ∉ seen := fun hmem => hkey (hseen key hmem)
        rw [hkeys, List.find?_cons_of_pos (by simpa using hkey), readParts, h.foreign hkey hfirst]
        rfl

/-- Every reading that knows the same fields gives the same verdict. -/
theorem Knows.accepted_read {known : List Char} {f : Text}
    {emit : List Char → Part → Except Error (List α)} (h : Knows known f emit) :
    accepted (read emit f) = verdict known f := by
  have hparts := h.accepted_readParts (parts f) (List.forall_mem_nil (· ∈ known))
  have hend : checkEnd f =
      if percentRun f % 2 = 1 then .error (.malformedFormat f) else .ok () := by
    simp only [checkEnd, endsAlone_iff_odd]
  unfold verdict read
  rw [← hend]
  cases hread : readParts emit [] (parts f) with
  | error cause =>
    rw [hread] at hparts
    split at hparts
    next => exact hparts
    next => cases hparts
  | ok out =>
    rw [hread] at hparts
    split at hparts
    next => cases hparts
    next => cases checkEnd f <;> rfl

/-- The keys of a table are exactly the given ones. -/
def HasKeys (table : Table α) (known : List Char) : Prop :=
  ∀ key, key ∈ table.map Prod.fst ↔ ∃ k ∈ known, key = [k]

namespace HasKeys

variable {table : Table α} {known : List Char} (h : HasKeys table known)

include h

theorem lookup_eq_none_iff {k : Char} : table.lookup [k] = none ↔ k ∉ known := by
  have hmem : [k] ∈ table.map Prod.fst ↔ k ∈ known := by
    rw [h]
    constructor
    · rintro ⟨k', hk', heq⟩
      exact (List.cons.inj heq).1 ▸ hk'
    · exact fun hk => ⟨k, hk, rfl⟩
  rw [← hmem, List.lookup_eq_none_iff, List.mem_map]
  constructor
  · rintro hnone ⟨p, hp, hfst⟩
    simpa [hfst] using hnone p hp
  · intro hnone p hp
    rw [bne_iff_ne]
    exact fun hfst => hnone ⟨p, hp, hfst.symm⟩

/-- A key of the table has a value. -/
theorem find_eq_ok {k : Char} (hk : k ∈ known) (f : Text) : ∃ v, table.find [k] f = .ok v := by
  cases hlookup : table.lookup [k] with
  | none => exact absurd hk (h.lookup_eq_none_iff.mp hlookup)
  | some v => exact ⟨v, by rw [Table.find, hlookup]⟩

/-- Any other key is refused. -/
theorem find_eq_error {k : Char} (hk : k ∉ known) (f : Text) :
    table.find [k] f = .error (.undefinedPlaceholder [k] f) := by
  rw [Table.find, h.lookup_eq_none_iff.mpr hk]

end HasKeys

section

variable {known : List Char} (f : Text)

/-- Rendering into any alphabet knows the fields of its table. -/
theorem accepted_renderWith {table : Table (List α)} (h : HasKeys table known)
    (spell : Char → List α) : accepted (renderWith spell table f) = verdict known f := by
  apply Knows.accepted_read
  constructor
  · exact fun _ c => ⟨spell c, rfl⟩
  · exact fun _ key hkey => h.find_eq_ok hkey f
  · exact fun hkey _ => h.find_eq_error hkey f

/-- A table that does not define the percent sign does not redefine it. -/
theorem accepted_render {values : Table Text} (h : HasKeys values known)
    (hpercent : '%' ∉ known) : accepted (render values f) = verdict known f := by
  rw [← accepted_renderWith f h fun c => [c], render, checkPercent,
    h.lookup_eq_none_iff.mpr hpercent]
  rfl

/-- A pattern knows the fields of its table, wherever they come first. -/
theorem accepted_pattern {fragments : Table Text} (h : HasKeys fragments known) :
    accepted (pattern fragments f) = verdict known f := by
  rw [pattern, accepted_bind_pure]
  apply Knows.accepted_read
  constructor
  · exact fun _ c => ⟨_, rfl⟩
  · intro seen key hkey
    obtain ⟨v, hv⟩ := h.find_eq_ok hkey f
    by_cases hseen : key ∈ seen
    · exact ⟨_, if_pos hseen⟩
    · refine ⟨groupSource key v, ?_⟩
      simp only [if_neg hseen, hv]
      rfl
  · intro seen key hkey hseen
    simp only [if_neg hseen, h.find_eq_error hkey f]
    rfl

end

theorem accepted_eq_ok_iff {β : Type} {reading : Except Error β} :
    accepted reading = .ok () ↔ ∃ out, reading = .ok out := by
  cases reading with
  | error cause => simp [accepted, Except.map]
  | ok out => simp [accepted, Except.map]

/-- A format is accepted if all its fields are known and nothing is left over at its end. -/
theorem verdict_eq_ok_iff {known : List Char} {f : Text} :
    verdict known f = .ok () ↔
      (∀ key, .field key ∈ parts f → key ∈ known) ∧ (scan f).endsAlone = false := by
  have hforeign : ((parts f).filterMap Part.key?).find? (· ∉ known) = none ↔
      ∀ key, .field key ∈ parts f → key ∈ known := by
    simp only [List.find?_eq_none, ← mem_fieldKeys, fieldKeys, List.mem_eraseDups,
      decide_eq_true_eq, Decidable.not_not]
  rw [← hforeign, ← Bool.not_eq_true, endsAlone_iff_odd, verdict]
  cases ((parts f).filterMap Part.key?).find? (· ∉ known) with
  | some key => simp
  | none =>
    by_cases hodd : percentRun f % 2 = 1
    · simp [hodd]
    · simp [hodd]

/-- The glob of a format has a star for each part of a slot. -/
theorem hasKeys_globTable {known : List Char} (h : ∀ k, k ∈ known ↔ k = 's' ∨ k = 'e') :
    HasKeys globTable known := by
  intro key
  simp only [globTable, List.map_cons, List.map_nil, List.mem_cons, List.not_mem_nil, or_false, h]
  constructor
  · rintro (rfl | rfl)
    · exact ⟨'s', Or.inl rfl, rfl⟩
    · exact ⟨'e', Or.inr rfl, rfl⟩
  · rintro ⟨k, rfl | rfl, rfl⟩
    · exact Or.inl rfl
    · exact Or.inr rfl

/-- A format locates test cases if the readings that know the parts of a slot accept it and it has a
place for both. -/
theorem validate_iff_verdict {known : List Char} (h : ∀ k, k ∈ known ↔ k = 's' ∨ k = 'e')
    {f : Text} : validate f = .ok () ↔
      verdict known f = .ok () ∧ .field 's' ∈ parts f ∧ .field 'e' ∈ parts f := by
  rw [validate_eq_ok_iff, verdict_eq_ok_iff]
  simp only [h]
  rw [← and_assoc, and_comm (a := (scan f).endsAlone = false)]

/-- Readings of a format that know the same fields give it the same verdict. A format locates test
cases exactly if those that know the name and the extension accept it and it has a place for both. -/
theorem readings_agree {known : List Char} {values fragments : Table Text}
    (hpercent : '%' ∉ known) (hvalues : HasKeys values known)
    (hfragments : HasKeys fragments known) (f : Text) :
    accepted (render values f) = verdict known f ∧
      accepted (pattern fragments f) = verdict known f ∧
      ((∀ k, k ∈ known ↔ k = 's' ∨ k = 'e') →
        accepted (globPattern f) = verdict known f ∧
          (validate f = .ok () ↔ ((∃ r, render values f = .ok r) ∧
            (∃ p, pattern fragments f = .ok p) ∧ ∃ g, globPattern f = .ok g) ∧
              .field 's' ∈ parts f ∧ .field 'e' ∈ parts f)) := by
  have hrender := accepted_render f hvalues hpercent
  have hpattern := accepted_pattern f hfragments
  refine ⟨hrender, hpattern, fun hcase => ?_⟩
  have hglob : accepted (globPattern f) = verdict known f :=
    accepted_renderWith f (hasKeys_globTable hcase) Glob.quoteChar
  refine ⟨hglob, ?_⟩
  rw [validate_iff_verdict hcase, ← accepted_eq_ok_iff, ← accepted_eq_ok_iff,
    ← accepted_eq_ok_iff, hrender, hpattern, hglob, and_self, and_self]

/-- A format with a foreign field and a lone percent sign after it is refused by all readings because
of the field. -/
theorem readings_agree_foreign :
    '%' ∉ caseKeys ∧ HasKeys (caseTable ['a'] .input) caseKeys ∧
      HasKeys globTable caseKeys ∧
      accepted (render (caseTable ['a'] .input) ['%', 's', '%', 'x', '%']) =
        .error (.undefinedPlaceholder ['x'] ['%', 's', '%', 'x', '%']) ∧
      accepted (pattern globTable ['%', 's', '%', 'x', '%']) =
        .error (.undefinedPlaceholder ['x'] ['%', 's', '%', 'x', '%']) ∧
      accepted (globPattern ['%', 's', '%', 'x', '%']) =
        .error (.undefinedPlaceholder ['x'] ['%', 's', '%', 'x', '%']) := by
  have hkeys : HasKeys globTable caseKeys := hasKeys_globTable fun _ => mem_caseKeys
  have hvalues : HasKeys (caseTable ['a'] .input) caseKeys := hkeys
  obtain ⟨hrender, hpattern, hglob⟩ :=
    readings_agree (by decide) hvalues hkeys ['%', 's', '%', 'x', '%']
  exact ⟨by decide, hvalues, hkeys, hrender, hpattern, (hglob fun _ => mem_caseKeys).1⟩

end Format

end CaseFiles
