import CaseFiles.Proofs.Format.RoundTrip
import CaseFiles.Proofs.Regex.Regrouping

/-!
# Fragments on their own and in a format

The pattern of a format has a group around each fragment. A fragment that is well formed on its own
is so within the group, and it matches what it matches in a group on its own. Without the group it
matches the same texts only if it has no number that the group around it could give another
meaning. Main statement: `parse_standalone`.
-/

namespace CaseFiles

namespace Regex

/-- Whether the whole of a text matches a written expression. -/
def Matches (source text : Text) : Prop :=
  ∃ kept, capture (anchored source) text.units = .ok (some kept)

/-- What the groups of a well-formed expression keep. -/
theorem capture_of_parse {source : Text} {parsed : Parsed} (h : parse source.units = some parsed)
    (text : List CodeUnit) :
    capture source text = .ok ((parsed.regex.exec text).map fun kept name =>
      (parsed.names.lookup name).bind fun i => kept.lookup i) := by
  rw [capture, h]

theorem matches_iff {source text : Text} {parsed : Parsed}
    (h : parse (anchored source).units = some parsed) :
    Matches source text ↔ (parsed.regex.exec text.units).isSome = true := by
  rw [Matches, capture_of_parse h]
  cases parsed.regex.exec text.units with
  | none =>
    refine iff_of_false ?_ Bool.false_ne_true
    rintro ⟨kept, hkept⟩
    cases hkept
  | some kept => exact iff_of_true ⟨_, rfl⟩ rfl

theorem matches_of_found {source text : Text}
    (h : ((parse (anchored source).units).bind fun parsed =>
      parsed.regex.exec text.units).isSome = true) : Matches source text := by
  obtain ⟨kept, hkept⟩ := Option.isSome_iff_exists.mp h
  obtain ⟨parsed, hparsed, hkept⟩ := Option.bind_eq_some_iff.mp hkept
  exact (matches_iff hparsed).mpr (Option.isSome_of_eq_some hkept)

/-- No number in a fragment refers to a group of it, nor would it if there were one more. -/
def KeepsNumbers (source : Text) : Prop :=
  ∀ xs, lexemes false source.units = some xs → Unnumbered xs

section

variable {us : List CodeUnit} {xs : List Lexeme} {strict : Bool}

/-- An expression within a group, between the start and the end of the text. -/
theorem lexemes_grouped {front : List CodeUnit} {o : Opening} (h : Enclosed us)
    (hxs : lexemes false us = some xs)
    (hopen : Peels strict (front ++ (us ++ [unitOf ')', unitOf '$'])) [.opening o]
      (us ++ [unitOf ')', unitOf '$'])) :
    lexemes strict (unitOf '^' :: (front ++ (us ++ [unitOf ')', unitOf '$']))) =
      some (grouped o xs) := by
  have hstart (vs : List CodeUnit) :
      readLexeme strict (unitOf '^') vs = some (.edge .start, vs) := rfl
  have hfinish : lexemes strict [unitOf '$'] = some [.edge .finish] := rfl
  have hinner := lexemes_closing h ((lexemes_of_unreferring h.unreferring strict).trans hxs)
  rw [lexemes_cons, hstart, Option.bind_some, hopen.lexemes_eq, lexemes_append h, hinner, hfinish]
  simp [chain, grouped]

/-- What is well formed on its own does not begin with a question mark. -/
theorem notLazy_of_ofLexemes {parsed : Parsed} (hxs : lexemes strict us = some xs)
    (h : ofLexemes xs = some parsed) : NotLazy us := by
  intro hhead
  obtain ⟨vs, rfl⟩ := List.head?_eq_some_iff.mp hhead
  have hquestion : readLexeme strict (unitOf '?') vs = some (readGreed 0 (some 1) vs) := rfl
  rw [lexemes_cons, hquestion, Option.bind_some] at hxs
  obtain ⟨more, -, rfl⟩ := Option.map_eq_some_iff.mp hxs
  obtain ⟨-, r, hr, -⟩ := exists_of_ofLexemes h
  obtain ⟨q, hq⟩ : ∃ q, (readGreed 0 (some 1) vs).1 = .quantifier q := by
    unfold readGreed
    split <;> exact ⟨_, rfl⟩
  rw [hq] at hr
  cases hr

theorem notLazy_append (h : NotLazy us) (rest : List CodeUnit) :
    NotLazy (us ++ unitOf ')' :: rest) := by
  cases us with
  | nil =>
    intro hhead
    exact absurd (Option.some.inj hhead) (by decide)
  | cons u us => exact h

/-- An opening parenthesis is read off on its own if no question mark follows it. -/
theorem peels_capture {rest : List CodeUnit} (h : NotLazy rest) :
    Peels strict (Text.units ['('] ++ rest) [.opening (.capture none)] rest := by
  refine .cons ?_ (Nat.le_refl _) (.nil rest)
  change readOpening rest = _
  rw [readOpening, expect_question h]
  rfl

/-- The opening of a group that keeps nothing is read off. -/
theorem peels_plain (rest : List CodeUnit) :
    Peels strict (Text.units ['(', '?', ':'] ++ rest) [.opening .plain] rest :=
  .cons rfl (Nat.le_add_right _ 2) (.nil rest)

end

theorem spanning_alike {a b : Regex} (h : Alike a b) : Alike (spanning a) (spanning b) :=
  .seq (.edge _) (.seq h (.seq (.edge _) .empty))

/-- A fragment that is well formed on its own, gives no name to a group and refers to none by its
name. -/
structure Standalone (source : Text) : Prop where
  wellFormed : (parse source.units).isSome = true
  nameless : namesGroup false source.units = false
  unreferring : refersByName source.units = false

theorem Standalone.exists_lexemes {source : Text} (h : Standalone source) :
    ∃ xs parsed, lexemes false source.units = some xs ∧ ofLexemes xs = some parsed := by
  obtain ⟨parsed, hparsed⟩ := Option.isSome_iff_exists.mp h.wellFormed
  rw [parse, h.nameless] at hparsed
  obtain ⟨xs, hxs, hread⟩ := Option.bind_eq_some_iff.mp hparsed
  exact ⟨xs, parsed, hxs, hread⟩

theorem Standalone.enclosed {source : Text} (h : Standalone source) : Enclosed source.units := by
  obtain ⟨xs, -, hxs, -⟩ := h.exists_lexemes
  exact ⟨closed_of_lexemes hxs, h.nameless, h.unreferring⟩

/-- No name stands in the lexemes of such a fragment. -/
theorem Standalone.nameless_lexemes {source : Text} {xs : List Lexeme} (h : Standalone source)
    (hxs : lexemes false source.units = some xs) : ∀ x ∈ xs, x.nameless = true :=
  fun x hx => nameless_of_lexemes h.enclosed (lexemes_closing h.enclosed hxs) x
    (List.mem_append_left _ hx)

theorem units_group (front source : Text) :
    (anchored (front ++ source ++ [')'])).units =
      unitOf '^' :: (front.units ++ (source.units ++ [unitOf ')', unitOf '$'])) := by
  rw [Format.units_anchored]
  simp [Text.charUnits, unitOf]

/-- What a fragment is read as in a group, between the start and the end of the text. -/
theorem Standalone.parse_group {source front : Text} {o : Opening} {xs : List Lexeme}
    (h : Standalone source) (hxs : lexemes false source.units = some xs)
    (hopen : ∀ strict, Peels strict
      (front.units ++ (source.units ++ [unitOf ')', unitOf '$'])) [.opening o]
      (source.units ++ [unitOf ')', unitOf '$'])) :
    parse (anchored (front ++ source ++ [')'])).units = ofLexemes (grouped o xs) := by
  rw [parse, units_group, lexemes_grouped h.enclosed hxs (hopen _), Option.bind_some]

end Regex

namespace Format

open Regex (unitOf)

theorem parts_field {key : Char} (hkey : key ≠ '%') : parts ['%', key] = [.field key] := by
  rw [parts, scan_placeholder]
  exact congrArg (· :: []) (part_eq_field_iff.mpr ⟨rfl, hkey⟩)

/-- A format with one field and a fragment for it has a pattern. -/
theorem pattern_field {key : Char} (hkey : key ≠ '%') (fragment : Text) :
    pattern [([key], fragment)] ['%', key] =
      .ok ⟨groupSource key fragment, [(key, groupName key)]⟩ := by
  refine pattern_eq_ok_iff.mpr ⟨?_, fun _ => fragment, ?_, ?_⟩
  · rw [scan_placeholder]
    rfl
  · rw [parts_field hkey]
    intro k hk
    obtain rfl := Part.field.inj (List.mem_singleton.mp hk)
    rw [List.lookup_cons, beq_self_eq_true]
  · rw [parts_field hkey, splice, splicePart, if_neg List.not_mem_nil, splice, List.append_nil]
    rfl

/-- With a format of one field, a fragment is matched as it is in a group. -/
theorem parse_field {key : Char} {r : Text} (hkey : key ≠ '%') {parsed : Regex.Parsed}
    (hparsed : Regex.parse (Regex.anchored (groupSource key r)).units = some parsed) (t : Text) :
    ∃ answer, parse [([key], r)] ['%', key] t = .ok answer ∧
      answer.isSome = (parsed.regex.exec t.units).isSome := by
  rw [parse_of_pattern (pattern_field hkey r), Regex.capture_of_parse hparsed]
  exact ⟨_, rfl, by rw [Option.isSome_map, Option.isSome_map]⟩

/-- The field of a format that has one only is the whole text. -/
theorem parse_field_sound {key : Char} {r t : Text} (hkey : key ≠ '%')
    (hr : (Regex.parse r.units).isSome = true) {fields : Fields}
    (h : parse [([key], r)] ['%', key] t = .ok (some fields)) : fields = [(key, t.units)] := by
  have hfragments : ∀ k ∈ fieldKeys (parts ['%', key]), ∀ fragment,
      List.lookup [k] [([key], r)] = some fragment → (Regex.parse fragment.units).isSome = true := by
    intro k hk fragment hfragment
    rw [mem_fieldKeys, parts_field hkey] at hk
    obtain rfl := Part.field.inj (List.mem_singleton.mp hk)
    rw [List.lookup_cons, beq_self_eq_true] at hfragment
    rwa [← Option.some.inj hfragment]
  obtain ⟨-, v, rfl, htext⟩ := parse_sound hfragments h
  rw [parts_field hkey, fill_field, fill_nil, List.append_nil] at htext
  rw [parts_field hkey, htext]
  rfl

/-- A format of one field never fails on a text, and it finds the whole text in the field exactly if
the fragment matches the text in a group on its own. If its numbers are kept, then it makes no
difference that the group keeps what it takes. -/
theorem parse_standalone {key : Char} {r : Text} (hkey : key ≠ '%') (hr : Regex.Standalone r)
    (t : Text) :
    ∃ answer, parse [([key], r)] ['%', key] t = .ok answer ∧
      (∀ fields, answer = some fields → fields = [(key, t.units)]) ∧
      (answer.isSome = true ↔ Regex.Matches (['('] ++ r ++ [')']) t) ∧
      (Regex.KeepsNumbers r →
        (answer.isSome = true ↔ Regex.Matches (['(', '?', ':'] ++ r ++ [')']) t)) := by
  obtain ⟨xs, parsed, hxs, hread⟩ := hr.exists_lexemes
  have hnameless := hr.nameless_lexemes hxs
  obtain ⟨a, b, hplain, hcapture, halike⟩ :=
    Regex.exists_grouped hread hnameless (some (groupName key))
  have hbare := Regex.ofLexemes_unnamed hnameless (groupName key)
  rw [hcapture, Option.map_some] at hbare
  have hlazy := Regex.notLazy_append (Regex.notLazy_of_ofLexemes hxs hread) [unitOf '$']
  have hnamed := (hr.parse_group hxs fun _ => peels_opening key _).trans hcapture
  obtain ⟨answer, hanswer, hsome⟩ := parse_field hkey hnamed t
  refine ⟨answer, hanswer, ?_, ?_, fun hkeeps => ?_⟩
  · rintro fields rfl
    exact parse_field_sound hkey hr.wellFormed hanswer
  · rw [Regex.matches_iff ((hr.parse_group hxs fun _ => Regex.peels_capture hlazy).trans hbare),
      hsome]
  · rw [Regex.matches_iff ((hr.parse_group hxs fun _ => Regex.peels_plain _).trans hplain), hsome,
      Regex.exec_alike (Regex.spanning_alike (halike (hkeeps xs hxs)))]

/-- A number that is too large to refer to a group writes a character, in the format as well. -/
theorem parse_standalone_octal :
    Regex.Standalone "(x)\\3".toList ∧ Regex.KeepsNumbers "(x)\\3".toList ∧
      parse [(['a'], "(x)\\3".toList)] "%a".toList ['x', '\x03'] =
        .ok (some [('a', Text.units ['x', '\x03'])]) := by
  have hr : Regex.Standalone "(x)\\3".toList :=
    ⟨by decide +kernel, by decide +kernel, by decide +kernel⟩
  have hkeeps : Regex.KeepsNumbers "(x)\\3".toList := by
    have hlexemes : Regex.lexemes false (Text.units "(x)\\3".toList) =
        some [.opening (.capture none), .unit (.single (unitOf 'x')), .closing, .number ['3']] := by
      decide +kernel
    intro xs hxs digits hdigits
    obtain rfl := Option.some.inj (hlexemes.symm.trans hxs)
    obtain rfl : digits = ['3'] := by
      simpa using hdigits
    decide
  have hmatches : Regex.Matches (['(', '?', ':'] ++ "(x)\\3".toList ++ [')']) ['x', '\x03'] :=
    Regex.matches_of_found (by decide +kernel)
  obtain ⟨answer, hanswer, hfields, -, hiff⟩ :=
    parse_standalone (by decide : 'a' ≠ '%') hr ['x', '\x03']
  obtain ⟨fields, rfl⟩ := Option.isSome_iff_exists.mp ((hiff hkeeps).mpr hmatches)
  rw [hfields fields rfl] at hanswer
  exact ⟨hr, hkeeps, hanswer⟩

/-- In a format, a reference back to the only group of a fragment leads to the group around it. -/
theorem parse_renumbered :
    Regex.Standalone "(x)\\1".toList ∧ Regex.Matches "(?:(x)\\1)".toList "xx".toList ∧
      parse [(['a'], "(x)\\1".toList)] "%a".toList "xx".toList = .ok none :=
  ⟨⟨by decide +kernel, by decide +kernel, by decide +kernel⟩,
    Regex.matches_of_found (by decide +kernel), by decide +kernel⟩

end Format

end CaseFiles
