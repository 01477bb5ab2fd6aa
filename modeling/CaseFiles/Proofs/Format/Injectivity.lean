import CaseFiles.Proofs.Format.Filling

/-!
# Rendering tells slots apart

Two slots of a test case are never rendered into the same text. With one extension the lengths tell
that the names have the same length, and then the first place of the name shows it. With both
extensions the first name is at least as long as the second; the first field of the format must be
the name, so the second name begins the first one, and then the letter `i` occurs in it too often.
Main statement: `render_slot_injective`.
-/

namespace CaseFiles

namespace Format

variable {α : Type}

/-- A measure that adds up over a row, such as its length or the number of times a letter occurs,
adds up over the parts of a format. -/
theorem measure_fill_caseValue {μ : List α → Nat} (hnil : μ [] = 0)
    (happend : ∀ a b, μ (a ++ b) = μ a + μ b) (spell : Char → List α) (name ext : List α)
    {ps : List Part} (hfields : ∀ key, .field key ∈ ps → key = 's' ∨ key = 'e') :
    μ (fill spell (caseValue name ext) ps) =
      μ (fill spell (fun _ => []) ps) + ps.count (.field 's') * μ name +
        ps.count (.field 'e') * μ ext := by
  induction ps with
  | nil => simp [hnil]
  | cons p ps ih =>
    have hps := ih fun key hk => hfields key (List.mem_cons_of_mem p hk)
    cases p with
    | text c =>
      have hc (key : Char) : (Part.text c :: ps).count (.field key) = ps.count (.field key) :=
        List.count_cons_of_ne (by simp)
      rw [fill_text, fill_text, happend, happend, hps, hc, hc]
      omega
    | field key =>
      rw [fill_field, fill_field, happend, hps, List.nil_append]
      rcases hfields key List.mem_cons_self with rfl | rfl
      · have he : (Part.field 's' :: ps).count (.field 'e') = ps.count (.field 'e') :=
          List.count_cons_of_ne (by decide)
        rw [caseValue_name, List.count_cons_self, he, Nat.succ_mul]
        omega
      · have hs : (Part.field 'e' :: ps).count (.field 's') = ps.count (.field 's') :=
          List.count_cons_of_ne (by decide)
        rw [caseValue_ext, List.count_cons_self, hs, Nat.succ_mul]
        omega

/-- Before the first field there are plain characters only. -/
theorem exists_first_field {ps : List Part} {key : Char} (h : .field key ∈ ps) :
    ∃ (t : Text) (first : Char) (rest : List Part), ps = t.map .text ++ .field first :: rest := by
  induction ps with
  | nil => exact nomatch h
  | cons p ps ih =>
    cases p with
    | field first => exact ⟨[], first, ps, rfl⟩
    | text c =>
      obtain ⟨t, first, rest, rfl⟩ := ih ((List.mem_cons.mp h).resolve_left (by simp))
      exact ⟨c :: t, first, rest, rfl⟩

section

variable {spell : Char → List α} {ps : List Part} {name₁ name₂ : List α}
  (hfields : ∀ key, .field key ∈ ps → key = 's' ∨ key = 'e')

include hfields

/-- With one extension the name can be read off. -/
theorem name_eq_of_fill_eq {ext : List α} (hs : .field 's' ∈ ps)
    (h : fill spell (caseValue name₁ ext) ps = fill spell (caseValue name₂ ext) ps) :
    name₁ = name₂ := by
  have hlength : name₁.length = name₂.length := by
    have hl := congrArg List.length h
    rw [measure_fill_caseValue List.length_nil (fun _ _ => List.length_append) _ _ _ hfields,
      measure_fill_caseValue List.length_nil (fun _ _ => List.length_append) _ _ _ hfields] at hl
    exact Nat.eq_of_mul_eq_mul_left (List.count_pos_iff.mpr hs) (by omega)
  obtain ⟨before, after, rfl⟩ := List.append_of_mem hs
  have hbefore : (fill spell (caseValue name₁ ext) before).length =
      (fill spell (caseValue name₂ ext) before).length := by
    have hf key (hk : .field key ∈ before) := hfields key (List.mem_append_left _ hk)
    rw [measure_fill_caseValue List.length_nil (fun _ _ => List.length_append) _ _ _ hf,
      measure_fill_caseValue List.length_nil (fun _ _ => List.length_append) _ _ _ hf, hlength]
  simp only [fill_append, fill_field, caseValue_name] at h
  exact (List.append_inj (List.append_inj h hbefore).2 hlength).1

/-- Two extensions cannot both stand in one text if a letter begins the one that is not longer and
does not occur in the other. -/
theorem fill_ne_of_ext [DecidableEq α] {letter : α} {short long : List α} (hs : .field 's' ∈ ps)
    (he : .field 'e' ∈ ps) (hletter : letter ∉ long) (hlong : short.length < long.length) :
    fill spell (caseValue name₁ (letter :: short)) ps ≠ fill spell (caseValue name₂ long) ps := by
  intro h
  have hspos : 0 < ps.count (.field 's') := List.count_pos_iff.mpr hs
  have hepos : 0 < ps.count (.field 'e') := List.count_pos_iff.mpr he
  have hlength : name₂.length ≤ name₁.length := by
    have hl := congrArg List.length h
    rw [measure_fill_caseValue List.length_nil (fun _ _ => List.length_append) _ _ _ hfields,
      measure_fill_caseValue List.length_nil (fun _ _ => List.length_append) _ _ _ hfields,
      List.length_cons] at hl
    have hm : ps.count (.field 'e') * (short.length + 1) ≤ ps.count (.field 'e') * long.length :=
      Nat.mul_le_mul_left _ hlong
    exact Nat.le_of_mul_le_mul_left (by omega) hspos
  have hcount : name₁.count letter < name₂.count letter := by
    have hc := congrArg (List.count letter) h
    rw [measure_fill_caseValue List.count_nil (fun _ _ => List.count_append) _ _ _ hfields,
      measure_fill_caseValue List.count_nil (fun _ _ => List.count_append) _ _ _ hfields,
      List.count_cons_self, List.count_eq_zero_of_not_mem hletter] at hc
    have hm : 0 < ps.count (.field 'e') * (short.count letter + 1) :=
      Nat.mul_pos hepos (Nat.succ_pos _)
    exact Nat.lt_of_mul_lt_mul_left (a := ps.count (.field 's')) (by omega)
  obtain ⟨t, first, rest, rfl⟩ := exists_first_field hs
  rw [fill_append, fill_append, fill_texts, fill_texts, List.append_cancel_left_eq, fill_field,
    fill_field] at h
  rcases hfields first (List.mem_append_right _ List.mem_cons_self) with rfl | rfl
  · have hprefix : name₂ <+: name₁ :=
      List.prefix_of_prefix_length_le (List.prefix_append _ _) (h ▸ List.prefix_append _ _) hlength
    exact absurd (List.Sublist.count_le letter hprefix.sublist) (Nat.not_le_of_lt hcount)
  · rw [caseValue_ext, caseValue_ext] at h
    cases long with
    | nil => exact nomatch hlong
    | cons x long =>
      rw [List.cons_append, List.cons_append, List.cons.injEq] at h
      exact hletter (h.1 ▸ List.mem_cons_self)

end

/-- Of a format that locates test cases, two equal fillings have the same name and extension. -/
theorem slot_eq_of_fill_eq [DecidableEq α] {spell : Char → List α} {f : Text}
    (hf : validate f = .ok ()) (spellExt : Ext → List α) {letter : α} {short : List α}
    (hin : spellExt .input = letter :: short) (hletter : letter ∉ spellExt .output)
    (hlong : short.length < (spellExt .output).length) {name₁ name₂ : List α} {ext₁ ext₂ : Ext}
    (h : fill spell (caseValue name₁ (spellExt ext₁)) (parts f) =
      fill spell (caseValue name₂ (spellExt ext₂)) (parts f)) :
    name₁ = name₂ ∧ ext₁ = ext₂ := by
  obtain ⟨-, hfields, hs, he⟩ := validate_eq_ok_iff.mp hf
  cases ext₁ <;> cases ext₂
  case input.input => exact ⟨name_eq_of_fill_eq hfields hs h, rfl⟩
  case output.output => exact ⟨name_eq_of_fill_eq hfields hs h, rfl⟩
  case input.output => exact absurd (hin ▸ h) (fill_ne_of_ext hfields hs he hletter hlong)
  case output.input => exact absurd (hin ▸ h.symm) (fill_ne_of_ext hfields hs he hletter hlong)

/-- The slots of a format that locates test cases are told apart by the units they are rendered
into, whatever units the names are made of. -/
theorem slot_eq_of_units_eq {f : Text} (hf : validate f = .ok ()) {name₁ name₂ : List CodeUnit}
    {ext₁ ext₂ : Ext}
    (h : fill Text.charUnits (caseValue name₁ ext₁.text.units) (parts f) =
      fill Text.charUnits (caseValue name₂ ext₂.text.units) (parts f)) :
    name₁ = name₂ ∧ ext₁ = ext₂ :=
  slot_eq_of_fill_eq hf (fun e => Text.units e.text)
    (show Text.units Ext.input.text = 105 :: [110] from rfl) (by decide) (by decide) h

/-- A format that locates test cases is rendered into different texts for different slots, also
where names are rows of code units that are no text. -/
theorem render_slot_injective {f : Text} (hf : validate f = .ok ()) :
    (∀ (name₁ name₂ : Text) (ext₁ ext₂ : Ext),
      render (caseTable name₁ ext₁) f = render (caseTable name₂ ext₂) f →
        name₁ = name₂ ∧ ext₁ = ext₂) ∧
    ∀ (name₁ name₂ : List CodeUnit) (ext₁ ext₂ : Ext),
      renderWith Text.charUnits (caseUnits name₁ ext₁) f =
          renderWith Text.charUnits (caseUnits name₂ ext₂) f →
        name₁ = name₂ ∧ ext₁ = ext₂ := by
  constructor
  · intro name₁ name₂ ext₁ ext₂ h
    rw [render_caseTable hf, render_caseTable hf] at h
    exact slot_eq_of_fill_eq hf Ext.text rfl (by decide) (by decide)
      (Except.ok.inj h)
  · intro name₁ name₂ ext₁ ext₂ h
    rw [renderWith_caseUnits hf, renderWith_caseUnits hf] at h
    exact slot_eq_of_units_eq hf (Except.ok.inj h)

/-- No name for the output is rendered like a given name for the input, even where the extension
stands between the names. -/
theorem render_slot_crossed :
    validate ['%', 's', '%', 'e', '%', 'e', '%', 's'] = .ok () ∧
      ∀ name₁ name₂ : Text,
        render (caseTable name₁ .input) ['%', 's', '%', 'e', '%', 'e', '%', 's'] ≠
          render (caseTable name₂ .output) ['%', 's', '%', 'e', '%', 'e', '%', 's'] :=
  ⟨rfl, fun name₁ name₂ h =>
    nomatch ((render_slot_injective rfl).1 name₁ name₂ .input .output h).2⟩

end Format

end CaseFiles
