import CaseFiles.Format.Parse
import CaseFiles.Proofs.Format.Expression
import CaseFiles.Proofs.Regex.Keeping

/-!
# Texts that conform to a format

The expression of the parts of a format finds exactly the texts that the parts are filled into with
some word of the fragment for each field, and its groups keep such words. The walk through the parts
carries along what the groups of the fields before have kept. Main statements: a match is a filling
(`exec_sound`), and no filling is missed (`exec_complete`).
-/

namespace CaseFiles

namespace Format

open Regex (Fragment Place Next Captures)

/-- Units are taken one after the other if they stand there. -/
theorem run_units (us : List CodeUnit) (rest : Regex) (p : Place) (next : Next) :
    ((us.map fun u => .unit (.single u)).foldr .seq rest).run true p next =
      if us <+: p.after then rest.run true (p.past us) next else none := by
  induction us generalizing p with
  | nil => rw [if_pos List.nil_prefix]; rfl
  | cons u us ih =>
    obtain ⟨before, after, kept⟩ := p
    cases after with
    | nil => rw [if_neg (by simp)]; rfl
    | cons v vs =>
      have hhas : (Regex.Charset.single u).has v = (u == v) := Regex.Charset.has_single u v
      by_cases huv : u = v
      · subst huv
        have hstep : (((u :: us).map fun u => Regex.unit (.single u)).foldr .seq rest).run true
            ⟨before, u :: vs, kept⟩ next =
            ((us.map fun u => Regex.unit (.single u)).foldr .seq rest).run true
              ⟨u :: before, vs, kept⟩ next := by
          simp [Regex.run, Place.take]
        rw [hstep, ih]
        simp [Place.past, List.cons_prefix_cons]
      · rw [if_neg (by simp [List.cons_prefix_cons, huv])]
        simp [Regex.run, Place.take, huv]

/-- A reference back takes what its group has kept if that stands there. -/
theorem run_back {i : Nat} {w : List CodeUnit} {p : Place} (h : p.kept.lookup i = some w)
    (rest : Regex) (next : Next) :
    (Regex.seq (.back i) rest).run true p next =
      if w <+: p.after then rest.run true (p.past w) next else none := by
  simp only [Regex.run, if_true, h, Place.takeAll, List.isPrefixOf_iff_prefix]
  split <;> rfl

/-- A group keeps the word that its body has gone past. -/
theorem group_sound {body : Regex} {L : Language CodeUnit} (h : Regex.Covers (body.run true) L)
    {i : Nat} {rest : Regex} {p q : Place} {next : Next}
    (hrun : (Regex.seq (.group i body) rest).run true p next = some q) :
    ∃ w ∈ L, w <+: p.after ∧ rest.run true ((p.past w).keep i w) next = some q := by
  obtain ⟨w, hw, hp, hn⟩ :=
    h.sound (hrun : body.run true p (fun q => rest.run true (q.keep i (p.between true q)) next) = _)
  rw [Place.between_past hp] at hn
  exact ⟨w, hw, hp, hn⟩

/-- A word of its body that leads on is not missed by a group. -/
theorem group_complete {body : Regex} {L : Language CodeUnit}
    (h : Regex.Covers (body.run true) L) {i : Nat} {rest : Regex} {p : Place} {next : Next}
    {w : List CodeUnit} (hw : w ∈ L) (hp : w <+: p.after)
    (hn : (rest.run true ((p.past w).keep i w) next).isSome = true) :
    ((Regex.seq (.group i body) rest).run true p next).isSome = true := by
  change (body.run true p fun q => rest.run true (q.keep i (p.between true q)) next).isSome = true
  apply h.complete hw hp
  rw [Place.between_past hp]
  exact hn

variable {frag : Char → Fragment .choice} {index : Char → Nat}

/-- The groups of some fields have kept these words of their fragments. -/
def Keeps (frag : Char → Fragment .choice) (index : Char → Nat) (fields : Char → Prop)
    (kept : Captures) (v : Char → List CodeUnit) : Prop :=
  ∀ key, fields key → kept.lookup (index key) = some (v key) ∧ v key ∈ (frag key).language

/-- One more group keeps a word. -/
theorem Keeps.keep {fields : Char → Prop} {p : Place} {v : Char → List CodeUnit}
    (h : Keeps frag index fields p.kept v) {key : Char} {w : List CodeUnit}
    (hw : w ∈ (frag key).language) (hinj : ∀ k, fields k → index k = index key → k = key) :
    Keeps frag index (fun k => k = key ∨ fields k) (p.keep (index key) w).kept
      (Function.update v key w) := by
  intro k hk
  rw [Place.lookup_keep]
  by_cases hkey : k = key
  · subst hkey
    rw [if_pos rfl, Function.update_self]
    exact ⟨rfl, hw⟩
  · obtain ⟨hlookup, hmem⟩ := h k (hk.resolve_left hkey)
    rw [if_neg fun he => hkey (hinj k (hk.resolve_left hkey) he), Function.update_of_ne hkey]
    exact ⟨hlookup, hmem⟩

/-- What is still to be matched before some parts. -/
def onward (frag : Char → Fragment .choice) (index : Char → Nat) (seen : List Char)
    (ps : List Part) : Regex :=
  (terms frag index seen ps).foldr .seq (.seq (.edge .finish) .empty)

theorem onward_text (seen : List Char) (c : Char) (ps : List Part) :
    onward frag index seen (.text c :: ps) =
      ((Text.charUnits c).map fun u => .unit (.single u)).foldr .seq (onward frag index seen ps) :=
  List.foldr_append

theorem onward_seen {seen : List Char} {key : Char} (h : key ∈ seen) (ps : List Part) :
    onward frag index seen (.field key :: ps) =
      .seq (.back (index key)) (onward frag index (key :: seen) ps) := by
  rw [onward, terms, partTerms, if_pos h]
  rfl

theorem onward_new {seen : List Char} {key : Char} (h : key ∉ seen) (ps : List Part) :
    onward frag index seen (.field key :: ps) =
      .seq (.group (index key) (frag key).regex) (onward frag index (key :: seen) ps) := by
  rw [onward, terms, partTerms, if_neg h]
  rfl

/-- After the last part there must be nothing left. -/
theorem run_finish (p : Place) :
    (Regex.seq (.edge .finish) .empty).run true p some =
      if p.after = [] then some p else none := by
  obtain ⟨before, after, kept⟩ := p
  cases after <;> rfl

theorem run_onward_nil (seen : List Char) (p : Place) :
    (onward frag index seen []).run true p some = if p.after = [] then some p else none :=
  run_finish p

/-- The fields of some keys or of some parts. -/
def InUse (seen : List Char) (ps : List Part) (key : Char) : Prop := key ∈ seen ∨ .field key ∈ ps

theorem inUse_text_iff {seen : List Char} {c k : Char} {ps : List Part} :
    InUse seen (.text c :: ps) k ↔ InUse seen ps k := by
  simp [InUse]

theorem inUse_cons_iff {seen : List Char} {key k : Char} {ps : List Part} :
    InUse seen (.field key :: ps) k ↔ InUse (key :: seen) ps k := by
  simp only [InUse, List.mem_cons, Part.field.injEq]
  tauto

/-- What stands after a place begins with a word if the word can be gone past. -/
theorem after_eq_append {w : List CodeUnit} {p : Place} (h : w <+: p.after) :
    p.after = w ++ (p.past w).after := by
  obtain ⟨tail, htail⟩ := h
  rw [Place.past_after, ← htail, List.drop_left]

/-- A successful walk through the parts fills them in, with words that the groups have kept. -/
theorem onward_sound {ps : List Part} {seen : List Char} {p q : Place} {u : Char → List CodeUnit}
    (hinj : ∀ k l, InUse seen ps k → InUse seen ps l → index k = index l → k = l)
    (hu : Keeps frag index (· ∈ seen) p.kept u)
    (h : (onward frag index seen ps).run true p some = some q) :
    ∃ v, (∀ key ∈ seen, v key = u key) ∧ Keeps frag index (InUse seen ps) q.kept v ∧
      p.after = fill Text.charUnits v ps := by
  induction ps generalizing seen p u with
  | nil =>
    rw [run_onward_nil] at h
    split at h
    · rename_i hafter
      obtain rfl := Option.some.inj h
      exact ⟨u, fun _ _ => rfl, fun key hk => hu key (hk.resolve_right (by simp)), hafter⟩
    · exact nomatch h
  | cons part ps ih =>
    cases part with
    | text c =>
      rw [onward_text, run_units] at h
      split at h
      · rename_i hprefix
        simp only [inUse_text_iff] at hinj
        obtain ⟨v, hvu, hv, hafter⟩ := ih (p := p.past (Text.charUnits c)) hinj hu h
        refine ⟨v, hvu, fun k hk => hv k (inUse_text_iff.mp hk), ?_⟩
        rw [fill_text, ← hafter]
        exact after_eq_append hprefix
      · exact nomatch h
    | field key =>
      simp only [inUse_cons_iff] at hinj
      by_cases hk : key ∈ seen
      · rw [onward_seen hk, run_back (hu key hk).1] at h
        split at h
        · rename_i hprefix
          have hu' : Keeps frag index (· ∈ key :: seen) p.kept u := by
            intro k hmem
            rcases List.mem_cons.mp hmem with rfl | hmem
            · exact hu k hk
            · exact hu k hmem
          obtain ⟨v, hvu, hv, hafter⟩ := ih (p := p.past (u key)) hinj hu' h
          refine ⟨v, fun k hmem => hvu k (List.mem_cons_of_mem key hmem),
            fun k hmem => hv k (inUse_cons_iff.mp hmem), ?_⟩
          rw [fill_field, hvu key List.mem_cons_self, ← hafter]
          exact after_eq_append hprefix
        · exact nomatch h
      · rw [onward_new hk] at h
        obtain ⟨w, hw, hprefix, hrun⟩ := group_sound (Regex.covers_fragment (frag key)) h
        have hu' := Keeps.keep (p := p.past w) hu hw fun k hmem he =>
          hinj k key (Or.inl (List.mem_cons_of_mem key hmem)) (Or.inl List.mem_cons_self) he
        obtain ⟨v, hvu, hv, hafter⟩ := ih hinj
          (fun k hmem => hu' k (List.mem_cons.mp hmem)) hrun
        refine ⟨v, fun k hmem => ?_, fun k hmem => hv k (inUse_cons_iff.mp hmem), ?_⟩
        · have hne : k ≠ key := fun he => hk (he ▸ hmem)
          rw [hvu k (List.mem_cons_of_mem key hmem), Function.update_of_ne hne]
        · rw [fill_field, hvu key List.mem_cons_self, Function.update_self, ← hafter]
          exact after_eq_append hprefix

/-- The walk misses no way to fill in the parts. -/
theorem onward_complete {ps : List Part} {seen : List Char} {p : Place}
    {v : Char → List CodeUnit}
    (hinj : ∀ k l, InUse seen ps k → InUse seen ps l → index k = index l → k = l)
    (hkeeps : Keeps frag index (· ∈ seen) p.kept v)
    (hv : ∀ key, .field key ∈ ps → v key ∈ (frag key).language)
    (hafter : p.after = fill Text.charUnits v ps) :
    ((onward frag index seen ps).run true p some).isSome = true := by
  induction ps generalizing seen p with
  | nil =>
    rw [fill_nil] at hafter
    rw [run_onward_nil, if_pos hafter]
    rfl
  | cons part ps ih =>
    have hps key (hk : .field key ∈ ps) := hv key (List.mem_cons_of_mem part hk)
    cases part with
    | text c =>
      have hprefix : Text.charUnits c <+: p.after := ⟨_, hafter.symm⟩
      have hpast : (p.past (Text.charUnits c)).after = fill Text.charUnits v ps := by
        rw [Place.past_after, hafter, fill_text, List.drop_left]
      simp only [inUse_text_iff] at hinj
      rw [onward_text, run_units, if_pos hprefix]
      exact ih hinj hkeeps hps hpast
    | field key =>
      have hprefix : v key <+: p.after := ⟨_, hafter.symm⟩
      have hpast : (p.past (v key)).after = fill Text.charUnits v ps := by
        rw [Place.past_after, hafter, fill_field, List.drop_left]
      simp only [inUse_cons_iff] at hinj
      by_cases hk : key ∈ seen
      · rw [onward_seen hk, run_back (hkeeps key hk).1, if_pos hprefix]
        refine ih hinj (fun k hmem => ?_) hps hpast
        rcases List.mem_cons.mp hmem with rfl | hmem
        · exact hkeeps k hk
        · exact hkeeps k hmem
      · have hw := hv key List.mem_cons_self
        have hkeeps' := Keeps.keep (p := p.past (v key)) hkeeps hw fun k hmem he =>
          hinj k key (Or.inl (List.mem_cons_of_mem key hmem)) (Or.inl List.mem_cons_self) he
        rw [Function.update_eq_self] at hkeeps'
        rw [onward_new hk]
        apply group_complete (Regex.covers_fragment (frag key)) hw hprefix
        exact ih hinj (fun k hmem => hkeeps' k (List.mem_cons.mp hmem)) hps hpast

/-- Past the start of the text, an expression that asks for the start finds nothing. -/
theorem searchFrom_past_start (r : Regex) (u : CodeUnit) (before after : List CodeUnit) :
    (Regex.seq (.edge .start) r).searchFrom (u :: before) after = none := by
  induction after generalizing u before with
  | nil => rfl
  | cons v after ih => exact ih v (u :: before)

/-- An expression that asks for the start is tried there only. -/
theorem exec_start (r : Regex) (text : List CodeUnit) :
    (Regex.seq (.edge .start) r).exec text = (r.run true ⟨[], text, []⟩ some).map Place.kept := by
  cases text with
  | nil => rfl
  | cons u us =>
    have hsearch : (Regex.seq (.edge .start) r).searchFrom [] (u :: us) =
        (r.run true ⟨[], u :: us, []⟩ some <|>
          (Regex.seq (.edge .start) r).searchFrom [u] us) := rfl
    rw [Regex.exec, hsearch, searchFrom_past_start]
    cases r.run true ⟨[], u :: us, []⟩ some <;> rfl

/-- Distinct keys have distinct groups. -/
theorem groupIndex_injOn {ps : List Part} {k l : Char} (hk : .field k ∈ ps)
    (h : groupIndex ps k = groupIndex ps l) : k = l :=
  (List.idxOf_inj (mem_fieldKeys.mpr hk)).mp (Nat.succ.inj h)

/-- A match fills in the parts with words of the fragments, which its groups have kept. -/
theorem exec_sound {ps : List Part} {text : List CodeUnit} {kept : Captures}
    (h : (expression frag ps).exec text = some kept) :
    ∃ v, Keeps frag (groupIndex ps) (fun key => .field key ∈ ps) kept v ∧
      text = fill Text.charUnits v ps := by
  rw [expression, exec_start, Option.map_eq_some_iff] at h
  obtain ⟨q, hrun, rfl⟩ := h
  obtain ⟨v, -, hv, hafter⟩ := onward_sound (u := fun _ => [])
    (fun k l hk _ => groupIndex_injOn (hk.resolve_left List.not_mem_nil))
    (fun _ hmem => nomatch hmem) hrun
  exact ⟨v, fun key hk => hv key (Or.inr hk), hafter⟩

/-- No way to fill in the parts is missed. -/
theorem exec_complete {ps : List Part} {v : Char → List CodeUnit}
    (hv : ∀ key, .field key ∈ ps → v key ∈ (frag key).language) :
    ((expression frag ps).exec (fill Text.charUnits v ps)).isSome = true := by
  rw [expression, exec_start, Option.isSome_map]
  exact onward_complete (fun k l hk _ => groupIndex_injOn (hk.resolve_left List.not_mem_nil))
    (fun _ hmem => nomatch hmem) hv rfl

/-- The units that fields stand for, as a table to render with. -/
def fieldTable (fields : Fields) : Table (List CodeUnit) := fields.map fun p => ([p.1], p.2)

/-- What an anchored source of parts captures. -/
theorem capture_source (ps : List Part) (text : List CodeUnit) :
    Regex.capture (Regex.anchored (source frag [] ps)) text =
      .ok (((expression frag ps).exec text).map fun kept name =>
        ((groupTable ps).lookup name).bind fun i => kept.lookup i) := by
  rw [Regex.capture, parse_anchored]

/-- A format all of whose fields have regular fragments is read by searching for the expression of
its parts. -/
theorem parse_eq {table : Table Text} {f : Text} (he : (scan f).endsAlone = false)
    (ht : ∀ key, .field key ∈ parts f → table.lookup [key] = some (frag key).text) (t : Text) :
    parse table f t = .ok (((expression frag (parts f)).exec t.units).map fun kept =>
      (fieldKeys (parts f)).map fun key =>
        (key, (kept.lookup (groupIndex (parts f) key)).getD [])) := by
  rw [parse, pattern_eq frag he ht]
  change (Regex.capture (Regex.anchored (source frag [] (parts f))) t.units >>= fun kept =>
    Except.ok (kept.map fun of => ((fieldKeys (parts f)).map fun key =>
      (key, groupName key)).map fun e => (e.1, (of e.2).getD []))) = _
  rw [capture_source]
  apply congrArg Except.ok
  rw [Option.map_map]
  apply Option.map_congr
  intro kept _
  rw [Function.comp_apply, List.map_map]
  apply List.map_congr_left
  intro key hkey
  simp only [Function.comp_apply, lookup_groupTable (mem_fieldKeys.mp hkey), Option.bind_some]

/-- A format all of whose fields have regular fragments accepts exactly the texts that it is
rendered into with some word of its fragment for each field, and the fields that it finds are such
words. -/
theorem parse_isSome_iff_language {f : Text} {ks : List Char} {table : Table Text}
    {frag : Char → Fragment .choice} (hk : keys f = .ok ks)
    (ht : ∀ key ∈ ks, table.lookup [key] = some (frag key).text) (t : Text) :
    ∃ answer, parse table f t = .ok answer ∧
      (answer.isSome = true ↔ ∃ v : Char → List CodeUnit,
        (∀ key ∈ ks, v key ∈ (frag key).language) ∧
          renderWith Text.charUnits (assigned ks v) f = .ok t.units) ∧
      ∀ fields, answer = some fields →
        fields.map Prod.fst = ks ∧ (∀ p ∈ fields, p.2 ∈ (frag p.1).language) ∧
          renderWith Text.charUnits (fieldTable fields) f = .ok t.units := by
  obtain ⟨he, hks⟩ := keys_eq_ok_iff.mp hk
  have hmem {key : Char} : key ∈ ks ↔ .field key ∈ parts f := hks ▸ mem_fieldKeys
  refine ⟨_, parse_eq he (fun key hkey => ht key (hmem.mpr hkey)) t, ?_, ?_⟩
  · rw [Option.isSome_map]
    constructor
    · intro h
      obtain ⟨kept, hkept⟩ := Option.isSome_iff_exists.mp h
      obtain ⟨v, hv, htext⟩ := exec_sound hkept
      refine ⟨v, fun key hkey => (hv key (hmem.mp hkey)).2, ?_⟩
      rw [renderWith_assigned hk, htext]
    · rintro ⟨v, hv, hr⟩
      rw [renderWith_assigned hk] at hr
      rw [← Except.ok.inj hr]
      exact exec_complete fun key hkey => hv key (hmem.mpr hkey)
  · intro fields hfields
    obtain ⟨kept, hkept, rfl⟩ := Option.map_eq_some_iff.mp hfields
    obtain ⟨v, hv, htext⟩ := exec_sound hkept
    rw [← hks]
    have hvalue : (ks.map fun key => (key, (kept.lookup (groupIndex (parts f) key)).getD [])) =
        ks.map fun key => (key, v key) := by
      apply List.map_congr_left
      intro key hkey
      rw [(hv key (hmem.mp hkey)).1]
      rfl
    rw [hvalue]
    refine ⟨?_, ?_, ?_⟩
    · rw [List.map_map]
      exact List.map_id ks
    · intro p hp
      obtain ⟨key, hkey, rfl⟩ := List.mem_map.mp hp
      exact (hv key (hmem.mp hkey)).2
    · have htable : fieldTable (ks.map fun key => (key, v key)) = assigned ks v := by
        rw [fieldTable, List.map_map]
        rfl
      rw [htable, renderWith_assigned hk, htext]

/-- One or more digits. -/
def digits : Fragment .choice := .only (.single (.repeated (.set .digit) .plus))

/-- A run of digits that is used twice is read from `7-7`. -/
theorem parse_digits_twice :
    keys ['%', 'd', '-', '%', 'd'] = .ok ['d'] ∧
      ∃ fields, parse [(['d'], digits.text)] ['%', 'd', '-', '%', 'd'] ['7', '-', '7'] =
        .ok (some fields) := by
  have hkeys : keys ['%', 'd', '-', '%', 'd'] = .ok ['d'] := rfl
  have htable : ∀ key ∈ ['d'],
      List.lookup [key] [(['d'], digits.text)] = some ((fun _ => digits) key).text := by
    intro key hkey
    rw [List.mem_singleton.mp hkey]
    rfl
  obtain ⟨answer, hparse, hlanguage, -⟩ :=
    parse_isSome_iff_language hkeys htable ['7', '-', '7']
  have hseven : [Regex.unitOf '7'] ∈ digits.language := by
    refine Language.append_mem_mul (a := [Regex.unitOf '7']) (b := []) ?_ rfl
    exact Language.append_mem_mul (a := [Regex.unitOf '7']) (b := [])
      ⟨_, (Regex.has_charset .digit _).mp rfl, rfl⟩ (Language.nil_mem_kstar _)
  obtain ⟨fields, rfl⟩ := Option.isSome_iff_exists.mp
    (hlanguage.mpr ⟨fun _ => [Regex.unitOf '7'], fun _ _ => hseven, rfl⟩)
  exact ⟨hkeys, fields, hparse⟩

end Format

end CaseFiles
