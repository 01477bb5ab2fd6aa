import CaseFiles.Format.Parse
import CaseFiles.Proofs.Format.Filling
import CaseFiles.Proofs.Regex.Brackets

/-!
# Fragments in a pattern

What the parts of a format become in its pattern, with any fragments for the fields. The name of a
group is an identifier and tells its key. However a pattern is read, quoted characters stand for
themselves and a group ends where it was meant to, if its fragment leaves no group open and closes
none that it has not opened. Main statements: a format has a pattern exactly if its end is in order
and all its fields have fragments (`pattern_eq_ok_iff`), and what the pattern is read as
(`exists_spliced`).
-/

namespace CaseFiles

namespace Format

open Regex (Lexeme Lexes NameChar Peels unitOf)

private theorem isIdPart_of_isDigit {c : Char} (h : c.isDigit = true) : Text.isIdPart c = true := by
  have hrange : 0x30 ≤ c.toNat ∧ c.toNat ≤ 0x39 := by
    simp only [Char.isDigit, Bool.and_eq_true, decide_eq_true_eq] at h
    exact h
  have hin : Text.inRanges Text.idPartRanges c.toNat = true :=
    List.any_eq_true.mpr ⟨(0x30, 0x39), List.mem_cons_self, by simp [hrange.1, hrange.2]⟩
  rw [Text.isIdPart, hin, Bool.or_true]

/-- The name of a group is an identifier. -/
theorem isIdentifier_groupName (key : Char) : Text.isIdentifier (groupName key) = true := by
  have hdigits : (Nat.toDigits 10 key.toNat).all Text.isIdPart = true :=
    List.all_eq_true.mpr fun c hc =>
      isIdPart_of_isDigit (Nat.isDigit_of_mem_toDigits (by decide) (by decide) hc)
  rw [groupName, Text.isIdentifier, hdigits, Bool.and_true]
  decide

/-- The name of a group is written without escapes. -/
theorem nameChar_groupName {key c : Char} (h : c ∈ groupName key) : NameChar c := by
  rcases List.mem_cons.mp h with rfl | hd
  · exact ⟨by decide, by decide, by decide⟩
  · have hdigit : c.isDigit = true := Nat.isDigit_of_mem_toDigits (by decide) (by decide) hd
    have hrange : 0x30 ≤ c.toNat ∧ c.toNat ≤ 0x39 := by
      simp only [Char.isDigit, Bool.and_eq_true, decide_eq_true_eq] at hdigit
      exact hdigit
    refine ⟨by omega, ?_, ?_⟩
    · rintro rfl
      exact absurd hrange.2 (by decide)
    · rintro rfl
      exact absurd hrange.2 (by decide)

/-- The name of a group tells its key. -/
theorem groupName_injective {k l : Char} (h : groupName k = groupName l) : k = l := by
  have hdigits : Nat.toDigits 10 k.toNat = Nat.toDigits 10 l.toNat := (List.cons.inj h).2
  have hnat : k.toNat = l.toNat := by
    rw [← Nat.ofDigitChars_ten_toDigits (n := k.toNat), hdigits, Nat.ofDigitChars_ten_toDigits]
  exact Char.toNat_inj.mp hnat

section

variable (fragment : Char → Text)

/-- What one part becomes, given the keys of the fields before it. -/
def splicePart (seen : List Char) : Part → Text
  | .text c => Regex.quoteChar c
  | .field key => if key ∈ seen then againSource key else groupSource key (fragment key)

/-- What parts become, given the keys of the fields before them. -/
def splice (seen : List Char) : List Part → Text
  | [] => []
  | p :: ps => splicePart fragment seen p ++ splice (p.key?.toList ++ seen) ps

end

/-- How the pattern of a format is put together from the fragments of a table. -/
def emitPart (table : Table Text) (f : Text) (seen : List Char) : Part → Except Error Text
  | .text c => .ok (Regex.quoteChar c)
  | .field key =>
    if key ∈ seen then .ok (againSource key) else (table.find [key] f).map (groupSource key)

section

variable {table : Table Text} {f : Text} {fragment : Char → Text}

/-- If all fields have fragments, then these are spliced in. -/
theorem readParts_emitPart {ps : List Part} (seen : List Char)
    (h : ∀ key, .field key ∈ ps → table.lookup [key] = some (fragment key)) :
    readParts (emitPart table f) seen ps = .ok (splice fragment seen ps) := by
  induction ps generalizing seen with
  | nil => rfl
  | cons p ps ih =>
    rw [readParts, ih _ fun key hk => h key (List.mem_cons_of_mem p hk)]
    cases p with
    | text c => rfl
    | field key =>
      rw [splice, splicePart, emitPart, Table.find, h key List.mem_cons_self]
      split <;> rfl

/-- Only if they have, the format has a pattern. -/
theorem exists_lookup_of_readParts {ps : List Part} {seen : List Char} {source : Text}
    (hseen : ∀ key ∈ seen, ∃ t, table.lookup [key] = some t)
    (h : readParts (emitPart table f) seen ps = .ok source) :
    ∀ key, .field key ∈ ps → ∃ t, table.lookup [key] = some t := by
  induction ps generalizing seen source with
  | nil => exact fun _ hk => absurd hk List.not_mem_nil
  | cons p ps ih =>
    obtain ⟨front, back, hp, hps, -⟩ := readParts_cons_eq_ok_iff.mp h
    have hkey (key : Char) (hk : p = .field key) : ∃ t, table.lookup [key] = some t := by
      rw [hk, emitPart] at hp
      split at hp
      · rename_i hmem
        exact hseen key hmem
      · cases hfind : table.lookup [key] with
        | none =>
          rw [Table.find, hfind] at hp
          cases hp
        | some t => exact ⟨t, rfl⟩
    intro key hk
    rcases List.mem_cons.mp hk with hk | hk
    · exact hkey key hk.symm
    · refine ih (fun k hmem => ?_) hps key hk
      rcases List.mem_append.mp hmem with hmem | hmem
      · cases p with
        | text c => cases hmem
        | field first =>
          rw [List.mem_singleton.mp hmem]
          exact hkey first rfl
      · exact hseen k hmem

/-- A format has a pattern exactly if its end is in order and all its fields have fragments. -/
theorem pattern_eq_ok_iff {p : Pattern} :
    pattern table f = .ok p ↔ (scan f).endsAlone = false ∧ ∃ fragment : Char → Text,
      (∀ key, .field key ∈ parts f → table.lookup [key] = some (fragment key)) ∧
        p = ⟨splice fragment [] (parts f),
          (fieldKeys (parts f)).map fun key => (key, groupName key)⟩ := by
  have hread : pattern table f = (read (emitPart table f) f).bind fun source =>
      .ok ⟨source, (fieldKeys (parts f)).map fun key => (key, groupName key)⟩ := rfl
  rw [hread]
  constructor
  · intro h
    cases hsource : read (emitPart table f) f with
    | error cause =>
      rw [hsource] at h
      cases h
    | ok source =>
      obtain ⟨hend, hparts⟩ := read_eq_ok_iff.mp hsource
      have hlookup :=
        exists_lookup_of_readParts (fun _ hk => absurd hk List.not_mem_nil) hparts
      have hfragment : ∀ key, .field key ∈ parts f →
          table.lookup [key] = some ((table.lookup [key]).getD []) := by
        intro key hk
        obtain ⟨t, ht⟩ := hlookup key hk
        rw [ht]
        rfl
      rw [read_eq_ok_iff.mpr ⟨hend, readParts_emitPart [] hfragment⟩] at h
      exact ⟨hend, _, hfragment, (Except.ok.inj h).symm⟩
  · rintro ⟨hend, fragment, hfragment, rfl⟩
    rw [read_eq_ok_iff.mpr ⟨hend, readParts_emitPart [] hfragment⟩]
    rfl

/-- What a format with a pattern finds is what the groups of the pattern keep. -/
theorem parse_of_pattern {p : Pattern} (h : pattern table f = .ok p) (t : Text) :
    parse table f t = (Regex.capture (Regex.anchored p.source) t.units).map
      (Option.map fun of => p.groups.map fun group => (group.1, (of group.2).getD [])) := by
  rw [parse, h]
  change (Regex.capture (Regex.anchored p.source) t.units >>= _) = _
  cases Regex.capture (Regex.anchored p.source) t.units <;> rfl

end

/-- A reference back to a named group is read off. -/
theorem peels_again (key : Char) (rest : List CodeUnit) :
    Peels true (Text.units (againSource key) ++ rest) [.named (groupName key)] rest := by
  have hname := Regex.readName_append (fun _ hc => nameChar_groupName hc)
    (isIdentifier_groupName key) rest
  have hunits : Text.units (againSource key) ++ rest =
      unitOf '\\' :: unitOf 'k' :: unitOf '<' ::
        (Text.units (groupName key) ++ unitOf '>' :: rest) := by
    simp [againSource, Text.charUnits, unitOf]
  rw [hunits]
  refine .cons ?_ (by simp only [List.length_cons, List.length_append]; omega) (.nil rest)
  change (Regex.readName (Text.units (groupName key) ++ unitOf '>' :: rest) >>= fun found =>
    some (Lexeme.named found.1, found.2)) = _
  rw [hname]
  rfl

/-- The opening of a named group is read off. -/
theorem peels_opening {strict : Bool} (key : Char) (rest : List CodeUnit) :
    Peels strict (Text.units (['(', '?', '<'] ++ groupName key ++ ['>']) ++ rest)
      [.opening (.capture (some (groupName key)))] rest := by
  have hname := Regex.readName_append (fun _ hc => nameChar_groupName hc)
    (isIdentifier_groupName key) rest
  have hunits : Text.units (['(', '?', '<'] ++ groupName key ++ ['>']) ++ rest =
      unitOf '(' :: unitOf '?' :: unitOf '<' ::
        unitOf 'p' :: (Text.units (Nat.toDigits 10 key.toNat) ++ unitOf '>' :: rest) := by
    simp [groupName, Text.charUnits, unitOf]
  rw [hunits]
  refine .cons ?_ (by simp only [List.length_cons, List.length_append]; omega) (.nil rest)
  change ((Regex.readName (Text.units (groupName key) ++ unitOf '>' :: rest)).map
    fun found => (Lexeme.opening (.capture (some found.1)), found.2)) = _
  rw [hname]
  rfl

/-- The source of a group is its opening, the fragment and a closing parenthesis. -/
theorem units_groupSource (key : Char) (t : Text) (rest : List CodeUnit) :
    Text.units (groupSource key t) ++ rest =
      Text.units (['(', '?', '<'] ++ groupName key ++ ['>']) ++
        (Text.units t ++ unitOf ')' :: rest) := by
  simp [groupSource, Text.charUnits, unitOf]

/-- A unit that means nothing opens and closes nothing. -/
theorem not_mem_brackets {u : CodeUnit} (h : Regex.charOf u ∉ Regex.special) :
    u ∉ Regex.brackets := by
  intro hu
  obtain ⟨c, hc, rfl⟩ : ∃ c ∈ Regex.special, u = unitOf c := by
    simp only [Regex.brackets, List.mem_cons, List.not_mem_nil, or_false] at hu
    rcases hu with rfl | rfl | rfl | rfl | rfl <;> exact ⟨_, by decide, rfl⟩
  rw [Regex.charOf_unitOf (Regex.toNat_lt_of_mem_special hc)] at h
  exact h hc

/-- So it has no part in naming a group. -/
theorem namesGroup_plain {u : CodeUnit} (h : Regex.charOf u ∉ Regex.special) (us : List CodeUnit) :
    Regex.namesGroup false (u :: us) = Regex.namesGroup false us :=
  Regex.namesGroup_unbracketed (not_mem_brackets h) us

/-- A quoted character has no part in it either. -/
theorem namesGroup_quoteChar (c : Char) (rest : List CodeUnit) :
    Regex.namesGroup false (Text.units (Regex.quoteChar c) ++ rest) =
      Regex.namesGroup false rest := by
  by_cases hs : c ∈ Regex.special
  · rw [Regex.units_quoteChar_special hs]
    rfl
  · rw [Regex.units_quoteChar_plain hs]
    by_cases hc : c.toNat < 0x10000
    · rw [Regex.charUnits_of_basic hc]
      exact namesGroup_plain (by rwa [Regex.charOf_unitOf hc]) rest
    · obtain ⟨u, v, hu, hl, ht, -⟩ := Text.charUnits_pair hc
      rw [hu, List.cons_append, List.singleton_append,
        namesGroup_plain (by rw [Regex.charOf_surrogate (Or.inl hl)]; decide),
        namesGroup_plain (by rw [Regex.charOf_surrogate (Or.inr ht)]; decide)]

/-- Where some part is a field, some group has a name. -/
theorem namesGroup_splice (fragment : Char → Text) {ps : List Part} {key : Char}
    (h : .field key ∈ ps) (rest : List CodeUnit) :
    Regex.namesGroup false (Text.units (splice fragment [] ps) ++ rest) = true := by
  induction ps with
  | nil => exact nomatch h
  | cons p ps ih =>
    rw [splice, Text.units_append, List.append_assoc]
    cases p with
    | text c =>
      rw [splicePart, namesGroup_quoteChar]
      exact ih ((List.mem_cons.mp h).resolve_left (by simp))
    | field first =>
      rw [splicePart, if_neg List.not_mem_nil, groupSource, groupName]
      simp [Text.charUnits, Regex.namesGroup, Regex.isChar, unitOf]

/-- The units of an anchored source. -/
theorem units_anchored (source : Text) :
    Text.units (Regex.anchored source) = unitOf '^' :: (Text.units source ++ [unitOf '$']) := by
  simp [Regex.anchored, Text.charUnits, unitOf]

/-- The anchor at the start names no group. -/
theorem namesGroup_anchored (source : Text) :
    Regex.namesGroup false (Text.units (Regex.anchored source)) =
      Regex.namesGroup false (Text.units source ++ [unitOf '$']) := by
  rw [units_anchored, Regex.namesGroup.eq_def false (unitOf '^' :: _)]
  rfl

/-- The lexemes of parts whose fields have fragments that are read as balanced lexemes. -/
inductive Spliced : List Char → List Part → List Lexeme → Prop
  | nil {seen : List Char} : Spliced seen [] []
  | text {seen : List Char} {c : Char} {ps : List Part} {xs : List Lexeme} :
      Spliced seen ps xs → Spliced seen (.text c :: ps) (Regex.charLexemes c ++ xs)
  | again {seen : List Char} {key : Char} {ps : List Part} {xs : List Lexeme} :
      key ∈ seen → Spliced (key :: seen) ps xs →
      Spliced seen (.field key :: ps) (.named (groupName key) :: xs)
  | first {seen : List Char} {key : Char} {ps : List Part} {ys xs : List Lexeme} :
      key ∉ seen → Regex.nestAll 0 ys = some 0 → Spliced (key :: seen) ps xs →
      Spliced seen (.field key :: ps)
        (.opening (.capture (some (groupName key))) :: (ys ++ .closing :: xs))

/-- A source is read as the lexemes of its parts if its fragments close no group around them,
whatever comes after it. -/
theorem exists_spliced {fragment : Char → Text} {strict : Bool} {ps : List Part}
    {seen : List Char} {n : Nat} {rest : List CodeUnit} {ws : List Lexeme}
    (hfragment : ∀ key, .field key ∈ ps → ∀ rest,
      Regex.afterClose 0 false (Text.units (fragment key) ++ unitOf ')' :: rest) = some rest)
    (hstrict : ∀ key, .field key ∈ ps → strict = true)
    (h : Regex.readLexemes strict n (Text.units (splice fragment seen ps) ++ rest) = some ws) :
    ∃ m xs zs, ws = xs ++ zs ∧ Spliced seen ps xs ∧
      Regex.readLexemes strict m rest = some zs := by
  induction ps generalizing seen n ws with
  | nil => exact ⟨n, [], ws, rfl, .nil, h⟩
  | cons p ps ih =>
    have hps {m : Nat} {more : List Lexeme} (hmore : Regex.readLexemes strict m
        (Text.units (splice fragment (p.key?.toList ++ seen) ps) ++ rest) = some more) :=
      ih (fun key hk => hfragment key (List.mem_cons_of_mem p hk))
        (fun key hk => hstrict key (List.mem_cons_of_mem p hk)) hmore
    rw [splice, Text.units_append, List.append_assoc] at h
    cases p with
    | text c =>
      obtain ⟨m, more, rfl, hmore⟩ := (Regex.peels_quoteChar c _).exists_rest h
      obtain ⟨m, xs, zs, rfl, hxs, hzs⟩ := hps hmore
      exact ⟨m, _, zs, (List.append_assoc _ _ _).symm, .text hxs, hzs⟩
    | field key =>
      obtain rfl := hstrict key List.mem_cons_self
      by_cases hk : key ∈ seen
      · rw [splicePart, if_pos hk] at h
        obtain ⟨m, more, rfl, hmore⟩ := (peels_again key _).exists_rest h
        obtain ⟨m, xs, zs, rfl, hxs, hzs⟩ := hps hmore
        exact ⟨m, _, zs, rfl, .again hk hxs, hzs⟩
      · rw [splicePart, if_neg hk, units_groupSource] at h
        obtain ⟨m, inner, rfl, hinner⟩ := (peels_opening key _).exists_rest h
        obtain ⟨m, ys, more, rfl, hys, hmore⟩ :=
          Regex.exists_closing hinner (hfragment key List.mem_cons_self _)
        obtain ⟨m, xs, zs, rfl, hxs, hzs⟩ := hps hmore
        refine ⟨m, _, zs, ?_, .first hk hys hxs, hzs⟩
        simp

end Format

end CaseFiles
