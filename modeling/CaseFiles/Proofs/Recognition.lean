import CaseFiles.Proofs.Format.Conformance
import CaseFiles.Proofs.Format.Injectivity
import CaseFiles.Proofs.Path.Normalizing
import CaseFiles.Proofs.Text.Cutting
import CaseFiles.Recognize

/-!
# Recognising is the inverse of rendering

The pattern of a directory and a format is that of one longer row of parts, so what it matches is a
filling of them. The name is cut out of the path between texts, hence a text itself, and there is
only one slot whose rendering gives the path. Main statement: `recognize_iff_render`.
-/

namespace CaseFiles

open Computability

open Regex (Fragment Shorthand)

/-- The characters that end a line. -/
def lineEnds : List Char := ['\n', '\r', '\u2028', '\u2029']

/-- Rows of units that can name a test case: not empty, and without the end of a line. -/
def NameUnits (n : List CodeUnit) : Prop := n ≠ [] ∧ ∀ c ∈ lineEnds, Regex.unitOf c ∉ n

/-- The fragment of the name. -/
def nameFragment : Fragment .choice := .only (.single (.repeated (.set .point) .plus))

theorem basic_ext (e : Ext) : ∀ c ∈ e.text, c.toNat < 0x10000 := by
  cases e <;> simp [Ext.text]

/-- The fragment of the extension. -/
def extFragment : Fragment .choice :=
  .or (.chars Ext.input.text (basic_ext .input)) (.only (.chars Ext.output.text (basic_ext .output)))

/-- The fragments of the two fields of a slot. -/
def slotFragment (key : Char) : Fragment .choice := if key = 's' then nameFragment else extFragment

theorem lookup_slotTable {key : Char} (h : key = 's' ∨ key = 'e') :
    slotTable.lookup [key] = some (slotFragment key).text := by
  rcases h with rfl | rfl <;> rfl

/-- One after the other, words of one unit of a set are rows of units of the set. -/
theorem mem_kstar_set (s : Shorthand) {w : List CodeUnit} :
    w ∈ (Fragment.set s).language∗ ↔ ∀ u ∈ w, u ∈ s.members := by
  constructor
  · intro h
    obtain ⟨rows, rfl, hrows⟩ := Language.mem_kstar.mp h
    intro u hu
    obtain ⟨row, hrow, hmem⟩ := List.mem_flatten.mp hu
    obtain ⟨v, hv, rfl⟩ := hrows row hrow
    rwa [List.mem_singleton.mp hmem]
  · intro h
    induction w with
    | nil => exact Language.nil_mem_kstar _
    | cons u w ih =>
      rw [← Language.one_add_self_mul_kstar_eq_kstar]
      exact Or.inr (Language.append_mem_mul (a := [u]) ⟨u, h u List.mem_cons_self, rfl⟩
        (ih fun v hv => h v (List.mem_cons_of_mem u hv)))

/-- The units of a point are all but those that end a line. -/
theorem mem_point {u : CodeUnit} :
    u ∈ Shorthand.point.members ↔ ∀ c ∈ lineEnds, u ≠ Regex.unitOf c := by
  simp [Shorthand.members, lineEnds, Regex.unitOf]

/-- The language of the name. -/
theorem mem_language_name {w : List CodeUnit} : w ∈ nameFragment.language ↔ NameUnits w := by
  have hlanguage : nameFragment.language =
      (Fragment.set .point).language * (Fragment.set .point).language∗ * 1 := rfl
  have hpoints {w : List CodeUnit} :
      (∀ u ∈ w, u ∈ Shorthand.point.members) ↔ ∀ c ∈ lineEnds, Regex.unitOf c ∉ w := by
    simp only [mem_point]
    exact ⟨fun h c hc hmem => h _ hmem c hc rfl, fun h u hu c hc he => h c hc (he ▸ hu)⟩
  rw [hlanguage, mul_one, Language.mem_mul, NameUnits, ← hpoints]
  constructor
  · rintro ⟨a, ⟨u, hu, rfl⟩, b, hb, rfl⟩
    rw [mem_kstar_set] at hb
    refine ⟨List.cons_ne_nil u b, fun v hv => ?_⟩
    rcases List.mem_cons.mp hv with rfl | hv
    · exact hu
    · exact hb v hv
  · rintro ⟨hne, hall⟩
    cases w with
    | nil => exact absurd rfl hne
    | cons u w =>
      exact ⟨[u], ⟨u, hall u List.mem_cons_self, rfl⟩, w,
        (mem_kstar_set .point).mpr fun v hv => hall v (List.mem_cons_of_mem u hv), rfl⟩

/-- The language of the row of some characters is their text. -/
theorem mem_language_chars {t : Text} (h : ∀ c ∈ t, c.toNat < 0x10000) {w : List CodeUnit} :
    w ∈ (Fragment.chars t h).language ↔ w = Text.units t := by
  induction t generalizing w with
  | nil => rfl
  | cons c t ih =>
    have hstep : (Fragment.chars (c :: t) h).language =
        (Fragment.char c (h c List.mem_cons_self)).language *
          (Fragment.chars t fun d hd => h d (List.mem_cons_of_mem c hd)).language := rfl
    rw [hstep, Language.mem_mul]
    constructor
    · rintro ⟨a, ha, b, hb, rfl⟩
      rw [ih] at hb
      rw [hb, Text.units_cons]
      exact congrArg (· ++ Text.units t) ha
    · rintro rfl
      exact ⟨_, rfl, _, (ih _).mpr rfl, rfl⟩

/-- The language of the extension. -/
theorem mem_language_ext {w : List CodeUnit} :
    w ∈ extFragment.language ↔ ∃ e : Ext, w = Text.units e.text := by
  have hlanguage : w ∈ extFragment.language ↔
      w ∈ (Fragment.chars Ext.input.text (basic_ext .input)).language ∨
        w ∈ (Fragment.chars Ext.output.text (basic_ext .output)).language := Iff.rfl
  rw [hlanguage, mem_language_chars, mem_language_chars]
  constructor
  · rintro (h | h)
    · exact ⟨.input, h⟩
    · exact ⟨.output, h⟩
  · rintro ⟨e, h⟩
    cases e with
    | input => exact Or.inl h
    | output => exact Or.inr h

namespace Format

/-- Where values do not begin with half of a pair, neither does what is filled in. -/
theorem notTrail_fill {value : Char → List CodeUnit} {ps : List Part}
    (h : ∀ key, .field key ∈ ps → value key ≠ [] ∧ Text.NotTrail (value key)) :
    Text.NotTrail (fill Text.charUnits value ps) := by
  cases ps with
  | nil => exact fun _ hu => nomatch hu
  | cons p ps =>
    cases p with
    | text c => exact Text.notTrail_charUnits c _
    | field key =>
      obtain ⟨hne, htrail⟩ := h key List.mem_cons_self
      intro u hu
      rw [fill_field, List.head?_append_of_ne_nil _ hne] at hu
      exact htrail u hu

/-- Where the name has no place, only texts are filled in. -/
theorem fill_before_name {n : List CodeUnit} {e : Ext} {ps : List Part} (h : .field 's' ∉ ps) :
    fill Text.charUnits (caseValue n e.text.units) ps =
      Text.units (fill (fun c => [c]) (caseValue [] e.text) ps) := by
  rw [units_fill_caseValue]
  apply fill_congr
  intro key hkey
  have hne : key ≠ 's' := fun hk => h (hk ▸ hkey)
  rw [caseValue, caseValue, if_neg hne, if_neg hne]

/-- A name that a format puts behind a text to make a text is a text. -/
theorem exists_name_text {f t before : Text} {n : List CodeUnit} {e : Ext}
    (hf : validate f = .ok ()) (hn : n ≠ [])
    (h : t.units = before.units ++
      fill Text.charUnits (caseValue n e.text.units) (parts f)) :
    ∃ name : Text, name.units = n := by
  obtain ⟨-, hfields, hs, -⟩ := validate_eq_ok_iff.mp hf
  obtain ⟨front, back, hparts, hfirst⟩ := List.eq_append_cons_of_mem hs
  rw [hparts, fill_append, fill_before_name hfirst, fill_field, caseValue_name] at h
  obtain ⟨rest, -, hrest⟩ := Text.exists_text_of_append h
  obtain ⟨tail, -, htail⟩ := Text.exists_text_of_append hrest
  have hnotTrail : Text.NotTrail n := by
    intro u hu
    apply Text.notTrail_units tail u
    rw [htail, List.head?_append_of_ne_nil _ hn]
    exact hu
  refine Text.exists_text_of_notTrail htail (notTrail_fill fun key hkey => ?_)
  rcases hfields key (hparts ▸ List.mem_append_right front (List.mem_cons_of_mem _ hkey)) with
    rfl | rfl
  · exact ⟨hn, hnotTrail⟩
  · rw [caseValue_ext]
    cases e with
    | input => exact ⟨List.cons_ne_nil _ _, Text.notTrail_units Ext.input.text⟩
    | output => exact ⟨List.cons_ne_nil _ _, Text.notTrail_units Ext.output.text⟩

end Format

open Format (fill caseValue parts validate expression groupIndex)

/-- The parts of a format behind a text. -/
def partsBehind (before f : Text) : List Part := before.map .text ++ parts f

theorem mem_partsBehind {before f : Text} {key : Char} :
    .field key ∈ partsBehind before f ↔ .field key ∈ parts f := by
  simp [partsBehind]

theorem fill_partsBehind (before f : Text) (value : Char → List CodeUnit) :
    fill Text.charUnits value (partsBehind before f) =
      before.units ++ fill Text.charUnits value (parts f) := by
  rw [partsBehind, Format.fill_append, Format.fill_texts, Text.units]

/-- The source of a format behind a text is that of the parts behind the text. -/
theorem source_partsBehind (before f : Text) :
    Regex.quote before ++ Format.source slotFragment [] (parts f) =
      Format.source slotFragment [] (partsBehind before f) :=
  (Format.source_texts slotFragment [] before (parts f)).symm

/-- The slot that two groups have kept, if they have kept texts. -/
def slotOf (name ext : Option (List CodeUnit)) : Option Slot := do
  let e ← Ext.ofText? (← Text.ofUnits? (← ext))
  let n ← Text.ofUnits? (← name)
  return ⟨n, e⟩

/-- The slot that the expression of a directory and a format finds in a path. -/
def foundSlot (root f file : Text) : Option Slot :=
  ((expression slotFragment (partsBehind (asParent root) f)).exec file.units).bind fun kept =>
    slotOf (kept.lookup (groupIndex (partsBehind (asParent root) f) 's'))
      (kept.lookup (groupIndex (partsBehind (asParent root) f) 'e'))

/-- Recognising a file resolves the directory, then the file, and then only looks for a slot. -/
theorem recognize_eq_bind {d : Disk} {directory f path : Text} (hf : validate f = .ok ()) :
    recognize d directory f path = (d.resolve directory).bind fun root =>
      (d.resolve path).bind fun file => .ok (foundSlot root f file) := by
  obtain ⟨he, hfields, hs, hext⟩ := Format.validate_eq_ok_iff.mp hf
  have hpattern := Format.pattern_eq slotFragment he fun key hk => lookup_slotTable (hfields key hk)
  have hgroup {key : Char} (hk : .field key ∈ parts f) :
      ((Format.fieldKeys (parts f)).map fun key => (key, Format.groupName key)).lookup key =
        some (Format.groupName key) :=
    Format.lookup_map_key id id _ (Format.mem_fieldKeys.mpr hk)
  rw [recognize, hpattern]
  simp only [bind, Except.bind, hgroup hs, hgroup hext]
  cases d.resolve directory with
  | error cause => rfl
  | ok root =>
    cases d.resolve path with
    | error cause => rfl
    | ok file =>
      simp only [source_partsBehind, Format.capture_source]
      apply congrArg Except.ok
      rw [Option.bind_map]
      apply Option.bind_congr
      intro kept _
      simp only [Function.comp_apply, Format.lookup_groupTable (mem_partsBehind.mpr hs),
        Format.lookup_groupTable (mem_partsBehind.mpr hext), Option.bind_some]
      rfl

/-- The slot is what the expression of the directory and the format finds in the path. -/
theorem recognize_eq {d : Disk} {directory f path root file : Text} (hf : validate f = .ok ())
    (hroot : d.resolve directory = .ok root) (hfile : d.resolve path = .ok file) :
    recognize d directory f path = .ok (foundSlot root f file) := by
  rw [recognize_eq_bind hf, hroot, hfile]
  rfl

/-- A path is not resolved if it cannot be looked up or leads round in a circle. -/
theorem Disk.fault_of_resolve {d : Disk} {p : Text} {cause : Error}
    (h : d.resolve p = .error cause) : cause = .nulInPath ∨ cause = .linkLoop := by
  rw [resolve, settle] at h
  split at h
  next => exact Or.inl (Except.error.inj h).symm
  next =>
    cases hsettle : d.tree.settle (d.locate p) with
    | ok l =>
      rw [hsettle] at h
      exact nomatch h
    | error f =>
      rw [hsettle] at h
      exact Or.inr (Except.error.inj h).symm

section

variable {d : Disk} {directory f p q : Text} (hf : validate f = .ok ())

include hf

/-- Either the directory and the file are resolved, or recognising fails as resolving does. -/
theorem resolved_or_fault :
    (∃ root file, d.resolve directory = .ok root ∧ d.resolve p = .ok file) ∨
      ∃ cause, recognize d directory f p = .error cause ∧
        (d.resolve directory = .error cause ∨ d.resolve p = .error cause) := by
  rw [recognize_eq_bind hf]
  cases d.resolve directory with
  | error cause => exact Or.inr ⟨cause, rfl, Or.inl rfl⟩
  | ok root =>
    cases d.resolve p with
    | error cause => exact Or.inr ⟨cause, rfl, Or.inr rfl⟩
    | ok file => exact Or.inl ⟨root, file, rfl, rfl⟩

/-- Recognising a file fails only where resolving fails. -/
theorem fault_of_recognize {cause : Error} (h : recognize d directory f p = .error cause) :
    cause = .nulInPath ∨ cause = .linkLoop := by
  rcases resolved_or_fault hf with ⟨root, file, hroot, hfile⟩ | ⟨first, hrec, hfault⟩
  · exact nomatch h.symm.trans (recognize_eq hf hroot hfile)
  · obtain rfl := Except.error.inj (hrec.symm.trans h)
    exact hfault.elim Disk.fault_of_resolve Disk.fault_of_resolve

/-- The directory and the file have been resolved if the file is recognised. -/
theorem exists_resolve_of_recognize {s : Option Slot} (h : recognize d directory f p = .ok s) :
    ∃ root file, d.resolve directory = .ok root ∧ d.resolve p = .ok file := by
  rcases resolved_or_fault hf with hresolved | ⟨cause, hrec, -⟩
  · exact hresolved
  · exact nomatch hrec.symm.trans h

/-- Files are recognised alike if they are resolved to one path. -/
theorem recognize_congr (h : d.resolve p = d.resolve q) :
    recognize d directory f p = recognize d directory f q := by
  rw [recognize_eq_bind hf, recognize_eq_bind hf, h]

end

/-- The path of a file is a format with this name and extension behind the directory. -/
def RenderedFrom (root f file : Text) (n : List CodeUnit) (e : Ext) : Prop :=
  NameUnits n ∧
    file.units = (asParent root).units ++
      fill Text.charUnits (caseValue n e.text.units) (parts f)

section

variable {f root file : Text} (hf : validate f = .ok ())

include hf

/-- What the expression finds is a slot that the path is rendered from. -/
theorem exec_slot_sound {kept : Regex.Captures}
    (h : (expression slotFragment (partsBehind (asParent root) f)).exec file.units = some kept) :
    ∃ (name : Text) (e : Ext), RenderedFrom root f file name.units e ∧
      slotOf (kept.lookup (groupIndex (partsBehind (asParent root) f) 's'))
        (kept.lookup (groupIndex (partsBehind (asParent root) f) 'e')) = some ⟨name, e⟩ := by
  obtain ⟨-, hfields, hs, hext⟩ := Format.validate_eq_ok_iff.mp hf
  obtain ⟨v, hv, hfile⟩ := Format.exec_sound h
  obtain ⟨hname, hnameWord⟩ := hv 's' (mem_partsBehind.mpr hs)
  obtain ⟨hkept, hextWord⟩ := hv 'e' (mem_partsBehind.mpr hext)
  have hnameUnits : NameUnits (v 's') := mem_language_name.mp hnameWord
  obtain ⟨e, he⟩ := mem_language_ext.mp hextWord
  have hfill : fill Text.charUnits v (parts f) =
      fill Text.charUnits (caseValue (v 's') e.text.units) (parts f) := by
    apply Format.fill_congr
    intro key hkey
    rcases hfields key hkey with rfl | rfl
    · rfl
    · exact he
  rw [fill_partsBehind, hfill] at hfile
  obtain ⟨name, hunits⟩ := Format.exists_name_text hf hnameUnits.1 hfile
  refine ⟨name, e, ⟨hunits ▸ hnameUnits, hunits ▸ hfile⟩, ?_⟩
  rw [hname, hkept, he, ← hunits]
  simp [slotOf, Text.ofUnits?_units]

/-- No slot that the path is rendered from is missed. -/
theorem exec_slot_complete {n : List CodeUnit} {e : Ext} (h : RenderedFrom root f file n e) :
    ((expression slotFragment (partsBehind (asParent root) f)).exec file.units).isSome = true := by
  obtain ⟨-, hfields, -, -⟩ := Format.validate_eq_ok_iff.mp hf
  rw [h.2, ← fill_partsBehind]
  apply Format.exec_complete
  intro key hkey
  rcases hfields key (mem_partsBehind.mp hkey) with rfl | rfl
  · exact mem_language_name.mpr h.1
  · exact mem_language_ext.mpr ⟨e, rfl⟩

/-- A path is rendered from one slot at most. -/
theorem RenderedFrom.unique {n₁ n₂ : List CodeUnit} {e₁ e₂ : Ext}
    (h₁ : RenderedFrom root f file n₁ e₁) (h₂ : RenderedFrom root f file n₂ e₂) :
    n₁ = n₂ ∧ e₁ = e₂ :=
  Format.slot_eq_of_units_eq hf (List.append_cancel_left (h₁.2.symm.trans h₂.2))

/-- That a path is rendered from a slot, said of rendering. -/
theorem renderedFrom_iff {n : List CodeUnit} {e : Ext} :
    RenderedFrom root f file n e ↔ NameUnits n ∧
      ∃ r, Format.renderWith Text.charUnits (Format.caseUnits n e) f = .ok r ∧
        file.units = (asParent root).units ++ r := by
  rw [Format.renderWith_caseUnits hf, RenderedFrom]
  refine and_congr_right fun _ => ⟨fun h => ⟨_, rfl, h⟩, ?_⟩
  rintro ⟨r, hr, h⟩
  rw [h, ← Except.ok.inj hr]

/-- That a path is rendered from a name which is a text can be said of texts. -/
theorem renderedFrom_text_iff {name : Text} {e : Ext} :
    RenderedFrom root f file name.units e ↔
      (name ≠ [] ∧ ∀ c ∈ lineEnds, c ∉ name) ∧
        ∃ r, Format.render (Format.caseTable name e) f = .ok r ∧ file = asParent root ++ r := by
  have hname : NameUnits name.units ↔ name ≠ [] ∧ ∀ c ∈ lineEnds, c ∉ name := by
    have hbasic : ∀ c ∈ lineEnds, c.toNat < 0x10000 := by simp [lineEnds]
    refine and_congr (not_congr ⟨fun h => Text.units_injective h, fun h => h ▸ rfl⟩) ?_
    exact forall₂_congr fun c hc => not_congr (Text.mem_units_iff (hbasic c hc))
  rw [RenderedFrom, hname, Format.render_caseTable hf]
  refine and_congr_right fun _ => ⟨fun h => ⟨_, rfl, Text.units_injective ?_⟩, ?_⟩
  · rw [h, Text.units_append, Format.units_fill_caseValue]
  · rintro ⟨r, hr, rfl⟩
    rw [← Except.ok.inj hr, Text.units_append, Format.units_fill_caseValue]

/-- The slot that is found is the one that the path is rendered from. -/
theorem foundSlot_eq_some_iff {name : Text} {e : Ext} :
    foundSlot root f file = some ⟨name, e⟩ ↔ RenderedFrom root f file name.units e := by
  rw [foundSlot]
  cases hexec : (expression slotFragment (partsBehind (asParent root) f)).exec file.units with
  | none =>
    refine ⟨fun h => (nomatch h), fun h => ?_⟩
    have hsome := exec_slot_complete hf h
    rw [hexec] at hsome
    exact nomatch hsome
  | some kept =>
    obtain ⟨name', e', hrendered, hslot⟩ := exec_slot_sound hf hexec
    rw [Option.bind_some, hslot]
    constructor
    · rintro ⟨⟩
      exact hrendered
    · intro h
      obtain ⟨hname, rfl⟩ := hrendered.unique hf h
      rw [Text.units_injective hname]

/-- No slot is found where the path is rendered from none, not even from one whose name is no
text. -/
theorem foundSlot_eq_none_iff :
    foundSlot root f file = none ↔ ¬ ∃ n e, RenderedFrom root f file n e := by
  rw [foundSlot]
  cases hexec : (expression slotFragment (partsBehind (asParent root) f)).exec file.units with
  | none =>
    refine ⟨fun _ => ?_, fun _ => rfl⟩
    rintro ⟨n, e, h⟩
    have hsome := exec_slot_complete hf h
    rw [hexec] at hsome
    exact nomatch hsome
  | some kept =>
    obtain ⟨name, e, hrendered, hslot⟩ := exec_slot_sound hf hexec
    rw [Option.bind_some, hslot]
    exact ⟨fun h => (nomatch h), fun h => absurd ⟨_, _, hrendered⟩ h⟩

end

/-- What lies below a directory has the path of the directory before its own. -/
theorem ofLocation_append {l way : Location} (hl : ∀ n ∈ l, n ≠ [] ∧ '/' ∉ n) (hway : way ≠ []) :
    Path.ofLocation (l ++ way) = asParent (Path.ofLocation l) ++ Path.joinSlash way := by
  by_cases hnil : l = []
  · subst hnil
    rfl
  · obtain ⟨front, n, rfl⟩ : ∃ front n, l = front ++ [n] :=
      ⟨l.dropLast, l.getLast hnil, (List.dropLast_concat_getLast hnil).symm⟩
    obtain ⟨hn, hslash⟩ := hl n (List.mem_append_right front List.mem_cons_self)
    have hpath : ∃ before, Path.ofLocation (front ++ [n]) = before ++ n := by
      by_cases hfront : front = []
      · exact ⟨['/'], by rw [hfront]; rfl⟩
      · refine ⟨'/' :: Path.joinSlash front ++ ['/'], ?_⟩
        rw [Path.ofLocation, Path.joinSlash_append hfront (List.cons_ne_nil n []), List.append_assoc]
        rfl
    have hlast : (Path.ofLocation (front ++ [n])).getLast? ≠ some '/' := by
      obtain ⟨before, hbefore⟩ := hpath
      rw [hbefore, List.getLast?_append_of_ne_nil _ hn]
      intro h
      exact hslash (List.mem_of_getLast? h)
    rw [asParent, if_neg hlast, Path.ofLocation, Path.joinSlash_append hnil hway, Path.ofLocation,
      List.append_assoc]
    rfl

section

variable {d : Disk} {directory f path root file : Text} (hf : validate f = .ok ())
  (hroot : d.resolve directory = .ok root) (hfile : d.resolve path = .ok file)

include hf hroot hfile

/-- A path is recognised as that of a slot exactly if it is rendered from the slot. -/
theorem recognize_eq_some_iff {name : Text} {e : Ext} :
    recognize d directory f path = .ok (some ⟨name, e⟩) ↔
      (name ≠ [] ∧ ∀ c ∈ lineEnds, c ∉ name) ∧
        ∃ r, Format.render (Format.caseTable name e) f = .ok r ∧ file = asParent root ++ r := by
  rw [recognize_eq hf hroot hfile, ← renderedFrom_text_iff hf, ← foundSlot_eq_some_iff hf,
    Except.ok.injEq]

/-- The slot of a path is the one from which the format is rendered into the rest of the path, and
there is none exactly if no row of units that can be a name and no extension are rendered so. -/
theorem recognize_iff_render :
    ∃ answer, recognize d directory f path = .ok answer ∧
      (∀ (name : Text) (e : Ext), answer = some ⟨name, e⟩ ↔
        (name ≠ [] ∧ ∀ c ∈ lineEnds, c ∉ name) ∧
          ∃ r, Format.render (Format.caseTable name e) f = .ok r ∧ file = asParent root ++ r) ∧
      (answer = none ↔ ¬ ∃ (n : List CodeUnit) (e : Ext), NameUnits n ∧
        ∃ r, Format.renderWith Text.charUnits (Format.caseUnits n e) f = .ok r ∧
          file.units = (asParent root).units ++ r) := by
  refine ⟨_, recognize_eq hf hroot hfile, fun name e => ?_, ?_⟩
  · rw [foundSlot_eq_some_iff hf, renderedFrom_text_iff hf]
  · rw [foundSlot_eq_none_iff hf]
    simp only [renderedFrom_iff hf]

end

/-- Only one file is recognised for a slot, however it is spelled. -/
theorem exists_file_of_recognize {d : Disk} {directory f p q : Text} {s : Slot}
    (hf : validate f = .ok ()) (hp : recognize d directory f p = .ok (some s))
    (hq : recognize d directory f q = .ok (some s)) :
    ∃ file, d.resolve p = .ok file ∧ d.resolve q = .ok file := by
  obtain ⟨root, file, hroot, hfile⟩ := exists_resolve_of_recognize hf hp
  obtain ⟨-, file', -, hfile'⟩ := exists_resolve_of_recognize hf hq
  obtain ⟨-, r, hr, rfl⟩ := (recognize_eq_some_iff hf hroot hfile).mp hp
  obtain ⟨-, r', hr', rfl⟩ := (recognize_eq_some_iff hf hroot hfile').mp hq
  obtain rfl := Except.ok.inj (hr.symm.trans hr')
  exact ⟨_, hfile, hfile'⟩

/-- The input of the test case `a` below the directory `d` is recognised from the root. -/
theorem recognize_input_below :
    validate ['%', 's', '.', '%', 'e'] = .ok () ∧
      Disk.resolve ⟨.empty, [], by simp⟩ ['d'] = .ok ['/', 'd'] ∧
      Disk.resolve ⟨.empty, [], by simp⟩ ['d', '/', 'a', '.', 'i', 'n'] =
        .ok ['/', 'd', '/', 'a', '.', 'i', 'n'] ∧
      recognize ⟨.empty, [], by simp⟩ ['d'] ['%', 's', '.', '%', 'e']
          ['d', '/', 'a', '.', 'i', 'n'] = .ok (some ⟨['a'], .input⟩) := by
  have hroot : Disk.resolve ⟨.empty, [], by simp⟩ ['d'] = .ok ['/', 'd'] := rfl
  have hfile : Disk.resolve ⟨.empty, [], by simp⟩ ['d', '/', 'a', '.', 'i', 'n'] =
      .ok ['/', 'd', '/', 'a', '.', 'i', 'n'] := rfl
  obtain ⟨answer, hanswer, hslot, -⟩ :=
    recognize_iff_render (f := ['%', 's', '.', '%', 'e']) rfl hroot hfile
  have hsome : answer = some ⟨['a'], .input⟩ :=
    (hslot ['a'] .input).mpr ⟨⟨by simp, by simp [lineEnds]⟩, _, rfl, rfl⟩
  exact ⟨rfl, hroot, hfile, hsome ▸ hanswer⟩

end CaseFiles
