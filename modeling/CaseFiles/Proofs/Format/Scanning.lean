import CaseFiles.Format.Scanner
import CaseFiles.Proofs.Format.Filling

/-!
# Scanning is the inverse of writing

Tokens can be told apart in what they write, since no literal is a percent sign, and every format is
written by tokens, up to a lone percent sign at its end. A scanner that is asked to the end hands out
these tokens one at a time. Main statements: what a format is scanned into (`scan_eq_iff`), what the
parts of a format write (`written_parts`, `parts_written`), and `scan_inverts_write`.
-/

namespace CaseFiles

namespace Format

/-- A character of which no rule for percent signs says anything is none. -/
theorem ne_percent_of_literal {c : Char} {rest : Text} (hlone : c = '%' → rest = [] → False)
    (hplaceholder : ∀ key more, c = '%' → rest = key :: more → False) : c ≠ '%' := by
  rintro rfl
  cases rest with
  | nil => exact hlone rfl rfl
  | cons key more => exact hplaceholder key more rfl rfl

/-- How many percent signs stand at the end of a text. -/
def percentRun (f : Text) : Nat := (f.reverse.takeWhile (· = '%')).length

/-- The run at the end of a text goes on before the text only if the text is nothing else. -/
theorem percentRun_append (front f : Text) :
    percentRun (front ++ f) =
      percentRun f + if percentRun f = f.length then percentRun front else 0 := by
  unfold percentRun
  rw [List.reverse_append, List.takeWhile_append, List.length_reverse]
  split
  next h => rw [List.length_append, List.length_reverse, h]
  next => rw [Nat.add_zero]

/-- A placeholder is two percent signs or ends in none. -/
theorem percentRun_placeholder (key : Char) : percentRun ['%', key] % 2 = 0 := by
  by_cases h : key = '%'
  · rw [h]
    decide
  · simp [percentRun, h]

/-- A percent sign is left over at the end of a format exactly if the run of percent signs there is
odd. -/
theorem endsAlone_iff_odd (f : Text) : (scan f).endsAlone = true ↔ percentRun f % 2 = 1 := by
  fun_induction scan f with
  | case1 => decide
  | case2 => decide
  | case3 key rest ih =>
    have hkey := percentRun_placeholder key
    have hrun := percentRun_append ['%', key] rest
    rw [List.cons_append, List.singleton_append] at hrun
    rw [prepend, ih, hrun]
    split <;> omega
  | case4 c rest hlone hplaceholder ih =>
    have hc : c ≠ '%' := ne_percent_of_literal hlone hplaceholder
    have hlast : percentRun [c] = 0 := by simp [percentRun, hc]
    have hrun := percentRun_append [c] rest
    rw [List.singleton_append, hlast, ite_self, Nat.add_zero] at hrun
    rw [prepend, ih, hrun]

/-- The tokens write the format, and none of them is a percent sign that stands for itself, which
would be taken for the start of a placeholder. -/
structure Spells (ts : List Token) (f : Text) : Prop where
  write_eq : write ts = f
  plain : .literal '%' ∉ ts

/-- What tokens write is scanned as these tokens, whatever comes after it. -/
theorem scan_write_append {ts : List Token} (h : .literal '%' ∉ ts) (rest : Text) :
    scan (write ts ++ rest) = ⟨ts ++ (scan rest).tokens, (scan rest).endsAlone⟩ := by
  induction ts with
  | nil => rfl
  | cons t ts ih =>
    have hts := ih fun hmem => h (List.mem_cons_of_mem t hmem)
    rw [write, List.flatMap_cons, List.append_assoc, ← write]
    cases t with
    | literal c =>
      have hc : c ≠ '%' := fun hc => h (hc ▸ List.mem_cons_self)
      rw [Token.text, List.singleton_append, scan_literal hc, hts]
      rfl
    | placeholder key =>
      rw [Token.text, List.cons_append, List.singleton_append, scan_placeholder, hts]
      rfl

/-- Scanning never takes a percent sign for a literal. -/
theorem literal_percent_notMem_scan (f : Text) : .literal '%' ∉ (scan f).tokens := by
  fun_induction scan f with
  | case1 => exact List.not_mem_nil
  | case2 => exact List.not_mem_nil
  | case3 key rest ih =>
    rw [prepend, List.mem_cons, not_or]
    exact ⟨Token.noConfusion, ih⟩
  | case4 c rest hlone hplaceholder ih =>
    rw [prepend, List.mem_cons, not_or]
    exact ⟨fun hc => ne_percent_of_literal hlone hplaceholder (Token.literal.inj hc).symm, ih⟩

/-- A format is scanned into the tokens that write it, up to a percent sign that is left over. -/
theorem scan_eq_iff {f : Text} {ts : List Token} {alone : Bool} :
    scan f = ⟨ts, alone⟩ ↔
      .literal '%' ∉ ts ∧ write ts ++ (if alone then ['%'] else []) = f := by
  constructor
  · intro h
    have hplain := literal_percent_notMem_scan f
    have hwrite := write_scan f
    rw [h] at hplain hwrite
    exact ⟨hplain, hwrite⟩
  · rintro ⟨hplain, rfl⟩
    rw [scan_write_append hplain]
    cases alone <;> simp [scan]

/-- A format whose end is in order is spelled by its tokens and by no others. -/
theorem spells_iff {ts : List Token} {f : Text} : Spells ts f ↔ scan f = ⟨ts, false⟩ := by
  rw [scan_eq_iff]
  simp only [Bool.false_eq_true, ite_false, List.append_nil]
  exact ⟨fun h => ⟨h.plain, h.write_eq⟩, fun h => ⟨h.2, h.1⟩⟩

/-- How a character that stands for itself is written in a format. -/
def writeChar (c : Char) : Text := if c = '%' then ['%', '%'] else [c]

/-- How parts are written in a format. -/
def written (q : List Part) : Text := fill writeChar (fun key => ['%', key]) q

@[simp] theorem written_text (c : Char) (q : List Part) :
    written (.text c :: q) = writeChar c ++ written q := rfl

@[simp] theorem written_field (key : Char) (q : List Part) :
    written (.field key :: q) = '%' :: key :: written q := rfl

theorem writeChar_of_ne {c : Char} (hc : c ≠ '%') : writeChar c = [c] := if_neg hc

end Format

/-- The token that asks for a part. -/
def Part.token : Part → Token
  | text c => if c = '%' then .placeholder '%' else .literal c
  | field key => .placeholder key

theorem Part.token_ne_percent (p : Part) : p.token ≠ .literal '%' := by
  cases p with
  | text c =>
    rw [token]
    split
    next => exact Token.noConfusion
    next hc => exact fun h => hc (Token.literal.inj h)
  | field key => exact Token.noConfusion

/-- A part is asked for by one token only. -/
theorem Token.token_part {t : Token} (h : t ≠ .literal '%') : t.part.token = t := by
  cases t with
  | literal c =>
    have hc : c ≠ '%' := fun hc => h (congrArg literal hc)
    rw [part, Part.token, if_neg hc]
  | placeholder key =>
    by_cases hkey : key = '%'
    · rw [part, if_pos hkey, Part.token, if_pos rfl, hkey]
    · rw [part, if_neg hkey, Part.token]

/-- The percent sign is not the key of a field; any other part comes of its token. -/
theorem Part.part_token {p : Part} (h : p ≠ .field '%') : p.token.part = p := by
  cases p with
  | text c =>
    by_cases hc : c = '%'
    · rw [token, if_pos hc, Token.part, if_pos rfl, hc]
    · rw [token, if_neg hc, Token.part]
  | field key =>
    have hkey : key ≠ '%' := fun hkey => h (congrArg field hkey)
    rw [token, Token.part, if_neg hkey]

namespace Format

/-- Parts are written as their tokens are. -/
theorem written_eq_write (q : List Part) : written q = write (q.map Part.token) := by
  induction q with
  | nil => rfl
  | cons p q ih =>
    rw [List.map_cons, write, List.flatMap_cons, ← write, ← ih]
    cases p with
    | text c =>
      rw [written_text, writeChar, Part.token]
      split <;> rfl
    | field key => rfl

/-- A format whose end is in order is written as its parts are. -/
theorem written_parts {f : Text} (h : (scan f).endsAlone = false) : written (parts f) = f := by
  have hspells : Spells (scan f).tokens f := spells_iff.mpr (by rw [← h])
  have htokens : (parts f).map Part.token = (scan f).tokens := by
    rw [parts, List.map_map]
    exact (List.map_congr_left fun t ht =>
      Token.token_part (ne_of_mem_of_not_mem ht hspells.plain)).trans (List.map_id _)
  rw [written_eq_write, htokens, hspells.write_eq]

/-- What parts write is scanned as their tokens. -/
theorem scan_written (q : List Part) : scan (written q) = ⟨q.map Part.token, false⟩ := by
  rw [← spells_iff, written_eq_write]
  refine ⟨rfl, fun h => ?_⟩
  obtain ⟨p, -, hp⟩ := List.mem_map.mp h
  exact p.token_ne_percent hp

/-- What parts write has these parts, if none of them is a field with the percent sign for its key. -/
theorem parts_written {q : List Part} (h : .field '%' ∉ q) : parts (written q) = q := by
  rw [parts, scan_written, List.map_map]
  exact (List.map_congr_left fun p hp =>
    Part.part_token (ne_of_mem_of_not_mem hp h)).trans (List.map_id _)

end Format

namespace Scanner

open Format (scan percentRun endsAlone_iff_odd)

variable {s : Scanner}

/-- The answer of a scanner when it has no more tokens. -/
def ending (s : Scanner) : Answer :=
  if (scan s.rest).endsAlone then .failed (.malformedFormat s.format) else .done

/-- After the next answer the next token is gone, or else the percent sign that was left over. -/
theorem scan_next (s : Scanner) :
    scan s.next.2.rest =
      ⟨(scan s.rest).tokens.tail, (scan s.rest).endsAlone && !(scan s.rest).tokens.isEmpty⟩ := by
  obtain ⟨format, rest⟩ := s
  fun_cases scan rest <;> simp [next, scan, Format.prepend, *]

/-- A scanner does not forget its format. -/
theorem format_next (s : Scanner) : s.next.2.format = s.format := by
  unfold next
  split <;> rfl

/-- A scanner with a token left hands it out, and its ending stays the same. -/
theorem next_of_cons {t : Token} {ts : List Token} (h : (scan s.rest).tokens = t :: ts) :
    s.next.1 = .token t ∧ (scan s.next.2.rest).tokens = ts ∧ s.next.2.ending = s.ending := by
  refine ⟨by rw [next_eq, h], by rw [scan_next, h, List.tail_cons], ?_⟩
  rw [ending, ending, scan_next, format_next, h, List.isEmpty_cons, Bool.not_false, Bool.and_true]

/-- A scanner without tokens gives its ending, and is done from then on. -/
theorem next_of_nil (h : (scan s.rest).tokens = []) :
    s.next.1 = s.ending ∧ (scan s.next.2.rest).tokens = [] ∧ s.next.2.ending = .done := by
  refine ⟨by rw [next_eq, h]; rfl, by rw [scan_next, h]; rfl, ?_⟩
  rw [ending, scan_next, h, List.isEmpty_nil, Bool.not_true, Bool.and_false]
  rfl

/-- No token is handed out as an ending. -/
theorem ending_ne_token (s : Scanner) (t : Token) : s.ending ≠ .token t := by
  unfold ending
  split <;> exact Answer.noConfusion

/-- A scanner that is asked until there are no more tokens hands out these ones, and this is its last
answer. -/
inductive Yields : Scanner → List Token → Answer → Prop
  | last {s : Scanner} : (∀ t, s.next.1 ≠ .token t) → Yields s [] s.next.1
  | more {s : Scanner} {t : Token} {ts : List Token} {a : Answer} :
    s.next.1 = .token t → Yields s.next.2 ts a → Yields s (t :: ts) a

/-- A scanner yields what the rest of its format is scanned into at once. -/
theorem yields_iff {ts : List Token} {a : Answer} :
    s.Yields ts a ↔ ts = (scan s.rest).tokens ∧ a = s.ending := by
  constructor
  · intro h
    induction h with
    | @last s hlast =>
      cases htokens : (scan s.rest).tokens with
      | nil => exact ⟨rfl, (next_of_nil htokens).1⟩
      | cons t ts => exact absurd (next_of_cons htokens).1 (hlast t)
    | @more s t ts a hnext _ ih =>
      obtain ⟨rfl, rfl⟩ := ih
      cases htokens : (scan s.rest).tokens with
      | nil => exact absurd ((next_of_nil htokens).1.symm.trans hnext) (ending_ne_token s t)
      | cons u us =>
        obtain ⟨hu, hus, hending⟩ := next_of_cons htokens
        rw [hus, hending, Answer.token.inj (hu.symm.trans hnext)]
        exact ⟨rfl, rfl⟩
  · rintro ⟨hts, rfl⟩
    induction ts generalizing s with
    | nil =>
      have hnext := (next_of_nil hts.symm).1
      rw [← hnext]
      exact .last fun t => hnext ▸ ending_ne_token s t
    | cons t ts ih =>
      obtain ⟨hnext, hrest, hending⟩ := next_of_cons hts.symm
      rw [← hending]
      exact .more hnext (ih hrest.symm)

/-- The ending of a new scanner is told by the run of percent signs at the end of its format. -/
theorem ending_new (f : Text) :
    (new f).ending =
      if percentRun f % 2 = 1 then .failed (.malformedFormat f) else .done := by
  simp only [ending, new, endsAlone_iff_odd]

end Scanner

namespace Format

/-- A format is scanned to the end without failure exactly if the run of percent signs at its end is
even. Then its tokens write it back; otherwise they write all of it but the last percent sign. The
other way round, what tokens write is scanned as these tokens. -/
theorem scan_inverts_write (f : Text) (ts : List Token) :
    (∀ us a, (Scanner.new f).Yields us a ↔ us = (scan f).tokens ∧
        a = if percentRun f % 2 = 1 then .failed (.malformedFormat f) else .done) ∧
      (percentRun f % 2 = 1 → write (scan f).tokens = f.dropLast) ∧
      (percentRun f % 2 = 0 → write (scan f).tokens = f) ∧
      .literal '%' ∉ (scan f).tokens ∧
      (.literal '%' ∉ ts → (Scanner.new (write ts)).Yields ts .done) := by
  have hwrite := write_scan f
  refine ⟨fun us a => ?_, fun hodd => ?_, fun heven => ?_, literal_percent_notMem_scan f,
    fun hplain => ?_⟩
  · rw [Scanner.yields_iff, Scanner.ending_new]
    rfl
  · rw [if_pos ((endsAlone_iff_odd f).mpr hodd)] at hwrite
    have hlast := congrArg List.dropLast hwrite
    rwa [List.dropLast_concat] at hlast
  · have hend : ¬ (scan f).endsAlone = true := fun hend => by
      have hodd := (endsAlone_iff_odd f).mp hend
      omega
    rwa [if_neg hend, List.append_nil] at hwrite
  · have hscan : scan (write ts) = ⟨ts, false⟩ := spells_iff.mp ⟨rfl, hplain⟩
    rw [Scanner.yields_iff]
    simp [Scanner.ending, Scanner.new, hscan]

/-- Three percent signs at the end are a placeholder and one sign that is left over; a key outside of
the basic plane is one character, and the percent sign is a key like any other. -/
theorem scan_inverts_write_odd :
    percentRun ['a', '%', 's', '%', '%', '%'] % 2 = 1 ∧
      write (scan ['a', '%', 's', '%', '%', '%']).tokens = ['a', '%', 's', '%', '%'] ∧
      percentRun ['%', '😀', '%', '%'] % 2 = 0 ∧
      write (scan ['%', '😀', '%', '%']).tokens = ['%', '😀', '%', '%'] ∧
      .literal '%' ∉ [Token.placeholder '%', .literal '😀'] ∧
      (Scanner.new ['%', '%', '😀']).Yields [.placeholder '%', .literal '😀'] .done := by
  obtain ⟨-, hodd, -, -, hyields⟩ := scan_inverts_write ['a', '%', 's', '%', '%', '%']
    [.placeholder '%', .literal '😀']
  obtain ⟨-, -, heven, -, -⟩ := scan_inverts_write ['%', '😀', '%', '%'] []
  exact ⟨by decide, hodd (by decide), by decide, heven (by decide), by decide,
    hyields (by decide)⟩

end Format

end CaseFiles
