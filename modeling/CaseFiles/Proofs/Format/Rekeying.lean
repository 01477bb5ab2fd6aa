import CaseFiles.Proofs.Distinct
import CaseFiles.Proofs.Format.Scanning
import CaseFiles.Proofs.Format.Splicing
import CaseFiles.Proofs.Regex.Renaming
import CaseFiles.Format.Parse

/-!
# Formats with other keys

The keys of a format only tell its fields apart. The groups of a pattern are called after them, but
no fragment that closes the classes it opens has anything to do with how groups are called. So with
other keys the pattern is read as the same expression. Main statement: `parse_renameKeys`.
-/

namespace CaseFiles

/-- A token with another key. The second sign of an escaped percent sign is no key. -/
def Token.rename (fresh : Char → Char) : Token → Token
  | .literal c => .literal c
  | .placeholder key => .placeholder (if key = '%' then '%' else fresh key)

/-- A part with another key. -/
def Part.rename (fresh : Char → Char) : Part → Part
  | .text c => .text c
  | .field key => .field (fresh key)

/-- A table with other keys. -/
def Table.rename {α : Type} (fresh : Char → Char) (table : Table α) : Table α :=
  table.map fun entry => (entry.1.map fresh, entry.2)

/-- Fields with other keys. -/
def Fields.rename (fresh : Char → Char) (fields : Fields) : Fields :=
  fields.map fun field => (fresh field.1, field.2)

namespace Format

open Regex (Enclosed Lexeme chain lexemes unitOf)

/-- A format with other keys. -/
def renameKeys (fresh : Char → Char) (f : Text) : Text :=
  write ((scan f).tokens.map (Token.rename fresh))

section

variable {fresh : Char → Char} {f : Text}

theorem scan_renameKeys (fresh : Char → Char) (f : Text) :
    scan (renameKeys fresh f) = ⟨(scan f).tokens.map (Token.rename fresh), false⟩ := by
  refine scan_eq_iff.mpr ⟨fun hmem => ?_, List.append_nil _⟩
  obtain ⟨t, ht, hrename⟩ := List.mem_map.mp hmem
  cases t with
  | literal c =>
    obtain rfl := Token.literal.inj hrename
    exact literal_percent_notMem_scan f ht
  | placeholder key => cases hrename

theorem parts_renameKeys (hfresh : ∀ key, .field key ∈ parts f → fresh key ≠ '%') :
    parts (renameKeys fresh f) = (parts f).map (Part.rename fresh) := by
  rw [parts, scan_renameKeys, parts, List.map_map, List.map_map]
  refine List.map_congr_left fun t ht => ?_
  cases t with
  | literal c => rfl
  | placeholder key =>
    by_cases hkey : key = '%'
    · rw [hkey]
      rfl
    · have hpart : (Token.placeholder key).part = .field key := part_eq_field_iff.mpr ⟨rfl, hkey⟩
      have hne := hfresh key (List.mem_map.mpr ⟨_, ht, hpart⟩)
      rw [Function.comp_apply, Function.comp_apply, hpart, Token.rename, if_neg hkey]
      exact part_eq_field_iff.mpr ⟨rfl, hne⟩

theorem filterMap_key_rename (fresh : Char → Char) (ps : List Part) :
    (ps.map (Part.rename fresh)).filterMap Part.key? = (ps.filterMap Part.key?).map fresh := by
  rw [List.filterMap_map, List.map_filterMap]
  refine List.filterMap_congr fun p _ => ?_
  cases p <;> rfl

/-- The keys of a format with other keys. -/
theorem fieldKeys_rename {ps : List Part}
    (hinj : ∀ k ∈ fieldKeys ps, ∀ l ∈ fieldKeys ps, fresh k = fresh l → k = l) :
    fieldKeys (ps.map (Part.rename fresh)) = (fieldKeys ps).map fresh := by
  rw [fieldKeys, filterMap_key_rename]
  exact eraseDups_map fun k hk l hl =>
    hinj k (List.mem_eraseDups.mpr hk) l (List.mem_eraseDups.mpr hl)

end

/-- The lexemes of what a part becomes, given the keys of the fields before it. -/
def splicedLexemes (strict : Bool) (fragment : Char → Text) (seen : List Char) :
    Part → Option (List Lexeme)
  | .text c => some (Regex.charLexemes c)
  | .field key =>
    if key ∈ seen then some [.named (groupName key)]
    else (lexemes strict ((fragment key).units ++ [unitOf ')'])).map
      (.opening (.capture (some (groupName key))) :: ·)

section

variable {strict : Bool} {fragment : Char → Text} {seen : List Char} {p : Part} {ps : List Part}

/-- Parts are read one after the other. -/
theorem lexemes_splice_cons (hstrict : ∀ key, p = .field key → strict = true)
    (hfragment : ∀ key, p = .field key → Enclosed (fragment key).units) (rest : List CodeUnit) :
    lexemes strict (Text.units (splice fragment seen (p :: ps)) ++ rest) =
      chain (splicedLexemes strict fragment seen p)
        (lexemes strict (Text.units (splice fragment (p.key?.toList ++ seen) ps) ++ rest)) := by
  rw [splice, Text.units_append, List.append_assoc]
  cases p with
  | text c => exact (Regex.peels_quoteChar c _).lexemes_eq
  | field key =>
    obtain rfl := hstrict key rfl
    rw [splicePart, splicedLexemes]
    split
    · exact (peels_again key _).lexemes_eq
    · rw [units_groupSource, (peels_opening key _).lexemes_eq,
        Regex.lexemes_append (hfragment key rfl)]
      exact Regex.map_cons_chain _ _ _

end

/-- Other keys for the fields of a format, and the names that the groups have then. -/
structure Rekeys (fresh : Char → Char) (called : Text → Text) (ks : List Char) : Prop where
  injective : ∀ k ∈ ks, ∀ l ∈ ks, fresh k = fresh l → k = l
  called_eq : ∀ k ∈ ks, called (groupName k) = groupName (fresh k)

/-- Lexemes with other names for their groups. -/
def renameAll (called : Text → Text) (xs : List Lexeme) : List Lexeme :=
  xs.map (Lexeme.rename fun name => some (called name))

theorem map_renameAll_chain (called : Text → Text) (front behind : Option (List Lexeme)) :
    (chain front behind).map (renameAll called) =
      chain (front.map (renameAll called)) (behind.map (renameAll called)) := by
  cases front with
  | none => rfl
  | some xs =>
    cases behind with
    | none => rfl
    | some ys => exact congrArg some List.map_append

section

variable {strict : Bool} {fragment fragment' : Char → Text} {fresh : Char → Char}
  {called : Text → Text} {ks seen : List Char} {p : Part}

theorem mem_map_iff (h : Rekeys fresh called ks) (hseen : ∀ k ∈ seen, k ∈ ks) {key : Char}
    (hkey : key ∈ ks) : fresh key ∈ seen.map fresh ↔ key ∈ seen := by
  refine ⟨fun hmem => ?_, List.mem_map_of_mem⟩
  obtain ⟨k, hk, hsame⟩ := List.mem_map.mp hmem
  exact h.injective k (hseen k hk) key hkey hsame ▸ hk

/-- With another key a part is read as the same lexemes but for the name of its group. -/
theorem splicedLexemes_rename (h : Rekeys fresh called ks) (hseen : ∀ k ∈ seen, k ∈ ks)
    (hkey : ∀ key, p = .field key → key ∈ ks)
    (hfragment : ∀ key, p = .field key → Enclosed (fragment key).units)
    (hsame : ∀ key, p = .field key → fragment' (fresh key) = fragment key) :
    splicedLexemes strict fragment' (seen.map fresh) (p.rename fresh) =
      (splicedLexemes strict fragment seen p).map (renameAll called) := by
  cases p with
  | text c =>
    rw [Part.rename, splicedLexemes, splicedLexemes, Option.map_some, Regex.charLexemes, renameAll,
      List.map_map]
    rfl
  | field key =>
    have hmem := hkey key rfl
    rw [Part.rename, splicedLexemes, splicedLexemes, hsame key rfl]
    simp only [mem_map_iff h hseen hmem]
    split
    · rw [Option.map_some, renameAll, List.map_singleton, Lexeme.rename, Option.getD_some,
        h.called_eq key hmem]
    · cases hxs : lexemes strict ((fragment key).units ++ [unitOf ')']) with
      | none => rfl
      | some xs =>
        have hbody : renameAll called xs = xs :=
          Regex.map_rename_of_nameless (Regex.nameless_of_lexemes (hfragment key rfl) hxs)
        have hopening : renameAll called (.opening (.capture (some (groupName key))) :: xs) =
            .opening (.capture (some (groupName (fresh key)))) :: xs := by
          rw [← h.called_eq key hmem]
          exact congrArg (_ :: ·) hbody
        rw [Option.map_some, Option.map_some, Option.map_some, hopening]

/-- The names in the lexemes of a part are those of its groups. -/
theorem name_of_splicedLexemes
    (hfragment : ∀ key, p = .field key → Enclosed (fragment key).units) {xs : List Lexeme}
    (h : splicedLexemes strict fragment seen p = some xs) {x : Lexeme} (hx : x ∈ xs) {name : Text}
    (hname : x.name? = some name) : ∃ key, p = .field key ∧ name = groupName key := by
  cases p with
  | text c =>
    obtain rfl := Option.some.inj h
    obtain ⟨u, -, rfl⟩ := List.mem_map.mp hx
    cases hname
  | field key =>
    refine ⟨key, rfl, ?_⟩
    rw [splicedLexemes] at h
    split at h
    · obtain rfl := Option.some.inj h
      rw [List.mem_singleton.mp hx] at hname
      exact (Option.some.inj hname).symm
    · obtain ⟨ys, hys, rfl⟩ := Option.map_eq_some_iff.mp h
      rcases List.mem_cons.mp hx with rfl | hx
      · exact (Option.some.inj hname).symm
      · have hnameless := Regex.nameless_of_lexemes (hfragment key rfl) hys x hx
        rw [Lexeme.nameless, hname] at hnameless
        cases hnameless

variable {ps : List Part} {rest : List CodeUnit}

/-- With other keys a source is read as the same lexemes but for the names of its groups. -/
theorem lexemes_splice_rename (h : Rekeys fresh called ks) (hseen : ∀ k ∈ seen, k ∈ ks)
    (hks : ∀ key, .field key ∈ ps → key ∈ ks) (hstrict : ∀ key, .field key ∈ ps → strict = true)
    (hfragment : ∀ key, .field key ∈ ps → Enclosed (fragment key).units)
    (hsame : ∀ key, .field key ∈ ps → fragment' (fresh key) = fragment key)
    (hrest : (lexemes strict rest).map (renameAll called) = lexemes strict rest) :
    lexemes strict
        (Text.units (splice fragment' (seen.map fresh) (ps.map (Part.rename fresh))) ++ rest) =
      (lexemes strict (Text.units (splice fragment seen ps) ++ rest)).map (renameAll called) := by
  induction ps generalizing seen with
  | nil => exact hrest.symm
  | cons p ps ih =>
    have hp {P : Char → Prop} (hall : ∀ key, .field key ∈ p :: ps → P key) :
        ∀ key, p = .field key → P key := by
      rintro key rfl
      exact hall key List.mem_cons_self
    have hps {P : Char → Prop} (hall : ∀ key, .field key ∈ p :: ps → P key) :
        ∀ key, .field key ∈ ps → P key := fun key hmem => hall key (List.mem_cons_of_mem p hmem)
    have hnext : ∀ k ∈ p.key?.toList ++ seen, k ∈ ks := by
      cases p with
      | text c => exact hseen
      | field key => exact List.forall_mem_cons.mpr ⟨hks key List.mem_cons_self, hseen⟩
    have hkey {key : Char} (hrename : p.rename fresh = .field key) :
        ∃ k, p = .field k ∧ fresh k = key := by
      cases p with
      | text c => cases hrename
      | field k => exact ⟨k, rfl, Part.field.inj hrename⟩
    rw [lexemes_splice_cons (hp hstrict) (hp hfragment), map_renameAll_chain,
      ← splicedLexemes_rename h hseen (hp hks) (hp hfragment) (hp hsame),
      ← ih hnext (hps hks) (hps hstrict) (hps hfragment) (hps hsame), List.map_cons,
      lexemes_splice_cons]
    · cases p <;> rfl
    · intro key hrename
      obtain ⟨k, hk, -⟩ := hkey hrename
      exact hp hstrict k hk
    · intro key hrename
      obtain ⟨k, hk, rfl⟩ := hkey hrename
      rw [hp hsame k hk]
      exact hp hfragment k hk

/-- The names in the lexemes of a source are those of its groups. -/
theorem name_of_lexemes_splice (hstrict : ∀ key, .field key ∈ ps → strict = true)
    (hfragment : ∀ key, .field key ∈ ps → Enclosed (fragment key).units)
    (hrest : ∀ xs, lexemes strict rest = some xs → ∀ x ∈ xs, x.name? = none) {ws : List Lexeme}
    (h : lexemes strict (Text.units (splice fragment seen ps) ++ rest) = some ws) {x : Lexeme}
    (hx : x ∈ ws) {name : Text} (hname : x.name? = some name) :
    ∃ key, .field key ∈ ps ∧ name = groupName key := by
  induction ps generalizing seen ws with
  | nil =>
    rw [hrest ws h x hx] at hname
    cases hname
  | cons p ps ih =>
    have hfield : ∀ key, p = .field key → Enclosed (fragment key).units := by
      rintro key rfl
      exact hfragment key List.mem_cons_self
    rw [lexemes_splice_cons (fun key hp => hstrict key (hp ▸ List.mem_cons_self)) hfield] at h
    obtain ⟨xs, hxs, h⟩ := Option.bind_eq_some_iff.mp h
    obtain ⟨ys, hys, rfl⟩ := Option.map_eq_some_iff.mp h
    rcases List.mem_append.mp hx with hx | hx
    · obtain ⟨key, rfl, hkey⟩ := name_of_splicedLexemes hfield hxs hx hname
      exact ⟨key, List.mem_cons_self, hkey⟩
    · obtain ⟨key, hmem, hkey⟩ := ih (fun key hk => hstrict key (List.mem_cons_of_mem p hk))
        (fun key hk => hfragment key (List.mem_cons_of_mem p hk)) hys hx
      exact ⟨key, List.mem_cons_of_mem p hmem, hkey⟩

end

section

variable {fragment fragment' : Char → Text} {fresh : Char → Char} {called : Text → Text}
  {ks : List Char} {ps : List Part}

/-- Without fields there is nothing to rename. -/
theorem splice_rename_of_texts (hps : ∀ key, .field key ∉ ps) (seen seen' : List Char) :
    splice fragment' seen' (ps.map (Part.rename fresh)) = splice fragment seen ps := by
  induction ps generalizing seen seen' with
  | nil => rfl
  | cons p ps ih =>
    cases p with
    | text c =>
      exact congrArg (Regex.quoteChar c ++ ·)
        (ih (fun key hmem => hps key (List.mem_cons_of_mem _ hmem)) seen seen')
    | field key => exact absurd List.mem_cons_self (hps key)

/-- Whether some group has a name does not depend on the keys. -/
theorem namesGroup_rename (fragment fragment' : Char → Text) (fresh : Char → Char) (ps : List Part)
    (rest : List CodeUnit) :
    Regex.namesGroup false (Text.units (splice fragment' [] (ps.map (Part.rename fresh))) ++ rest) =
      Regex.namesGroup false (Text.units (splice fragment [] ps) ++ rest) := by
  by_cases hps : ∃ key, .field key ∈ ps
  · obtain ⟨key, hkey⟩ := hps
    have hfresh : .field (fresh key) ∈ ps.map (Part.rename fresh) :=
      List.mem_map.mpr ⟨_, hkey, rfl⟩
    rw [namesGroup_splice fragment hkey, namesGroup_splice fragment' hfresh]
  · rw [splice_rename_of_texts (fun key hkey => hps ⟨key, hkey⟩) [] []]

/-- What a pattern is read as, between the start and the end of the text. -/
def patternLexemes (fragment : Char → Text) (ps : List Part) : Option (List Lexeme) :=
  let us := Text.units (splice fragment [] ps) ++ [unitOf '$']
  (lexemes (Regex.namesGroup false us) us).map (.edge .start :: ·)

theorem parse_splice (fragment : Char → Text) (ps : List Part) :
    Regex.parse (Text.units (Regex.anchored (splice fragment [] ps))) =
      (patternLexemes fragment ps).bind Regex.ofLexemes := by
  have hstart (strict : Bool) (us : List CodeUnit) :
      Regex.readLexeme strict (unitOf '^') us = some (.edge .start, us) := rfl
  rw [Regex.parse, namesGroup_anchored, units_anchored, Regex.lexemes_cons, hstart,
    Option.bind_some, patternLexemes]

theorem lexemes_finish (strict : Bool) : lexemes strict [unitOf '$'] = some [.edge .finish] := rfl

/-- With other keys a pattern is read as the same lexemes but for the names of its groups. -/
theorem patternLexemes_rename (h : Rekeys fresh called ks)
    (hks : ∀ key, .field key ∈ ps → key ∈ ks)
    (hfragment : ∀ key, .field key ∈ ps → Enclosed (fragment key).units)
    (hsame : ∀ key, .field key ∈ ps → fragment' (fresh key) = fragment key) :
    patternLexemes fragment' (ps.map (Part.rename fresh)) =
      (patternLexemes fragment ps).map (renameAll called) := by
  have hrest (strict : Bool) :
      (lexemes strict [unitOf '$']).map (renameAll called) = lexemes strict [unitOf '$'] := rfl
  have hlexemes := lexemes_splice_rename h (fun _ hk => absurd hk List.not_mem_nil) hks
    (fun _ hkey => namesGroup_splice fragment hkey [unitOf '$']) hfragment hsame (hrest _)
  rw [List.map_nil] at hlexemes
  rw [patternLexemes, namesGroup_rename fragment, hlexemes, Option.map_map, patternLexemes,
    Option.map_map]
  rfl

/-- The names of the groups in the lexemes of a pattern. -/
theorem name_of_patternLexemes (hks : ∀ key, .field key ∈ ps → key ∈ ks)
    (hfragment : ∀ key, .field key ∈ ps → Enclosed (fragment key).units) {ws : List Lexeme}
    (h : patternLexemes fragment ps = some ws) {x : Lexeme} (hx : x ∈ ws) {name : Text}
    (hname : x.name? = some name) : ∃ key ∈ ks, name = groupName key := by
  obtain ⟨xs, hxs, rfl⟩ := Option.map_eq_some_iff.mp h
  have hrest (strict : Bool) (ys : List Lexeme) (hys : lexemes strict [unitOf '$'] = some ys) :
      ∀ y ∈ ys, y.name? = none := by
    obtain rfl := Option.some.inj ((lexemes_finish strict).symm.trans hys)
    rw [List.forall_mem_singleton]
    rfl
  rcases List.mem_cons.mp hx with rfl | hx
  · cases hname
  · obtain ⟨key, hkey, hname⟩ := name_of_lexemes_splice
      (fun key hkey => namesGroup_splice fragment hkey _) hfragment (hrest _) hxs hx hname
    exact ⟨key, hks key hkey, hname⟩

/-- The groups of a pattern are called after its keys. -/
theorem name_of_parse_splice (hks : ∀ key, .field key ∈ ps → key ∈ ks)
    (hfragment : ∀ key, .field key ∈ ps → Enclosed (fragment key).units) {parsed : Regex.Parsed}
    (h : Regex.parse (Text.units (Regex.anchored (splice fragment [] ps))) = some parsed)
    {q : Text × Nat} (hq : q ∈ parsed.names) : ∃ key ∈ ks, q.1 = groupName key := by
  rw [parse_splice] at h
  obtain ⟨ws, hws, h⟩ := Option.bind_eq_some_iff.mp h
  obtain ⟨-, r, -, -, rfl⟩ := Regex.exists_of_ofLexemes h
  obtain ⟨x, hx, hname⟩ := Regex.exists_of_mem_groupNames hq
  exact name_of_patternLexemes hks hfragment hws hx hname

theorem Rekeys.eq_of_called (h : Rekeys fresh called ks) {m n : Text}
    (hm : ∃ key ∈ ks, m = groupName key) (hn : ∃ key ∈ ks, n = groupName key)
    (heq : called m = called n) : m = n := by
  obtain ⟨k, hk, rfl⟩ := hm
  obtain ⟨l, hl, rfl⟩ := hn
  rw [h.called_eq k hk, h.called_eq l hl] at heq
  rw [h.injective k hk l hl (groupName_injective heq)]

/-- With other keys a pattern is read as the same expression but for the names of its groups. -/
theorem parse_splice_rename (h : Rekeys fresh called ks) (hks : ∀ key, .field key ∈ ps → key ∈ ks)
    (hfragment : ∀ key, .field key ∈ ps → Enclosed (fragment key).units)
    (hsame : ∀ key, .field key ∈ ps → fragment' (fresh key) = fragment key) :
    Regex.parse (Text.units (Regex.anchored (splice fragment' [] (ps.map (Part.rename fresh))))) =
      (Regex.parse (Text.units (Regex.anchored (splice fragment [] ps)))).map fun parsed =>
        ⟨parsed.regex, parsed.names.map fun q => (called q.1, q.2)⟩ := by
  rw [parse_splice, parse_splice, patternLexemes_rename h hks hfragment hsame]
  cases hws : patternLexemes fragment ps with
  | none => rfl
  | some ws =>
    have hnames : ∀ x ∈ ws, ∀ name, x.name? = some name → ∃ key ∈ ks, name = groupName key :=
      fun x hx name hname => name_of_patternLexemes hks hfragment hws hx hname
    have hread : Regex.ofLexemes (renameAll called ws) = _ :=
      Regex.ofLexemes_renameAll hnames fun m n => h.eq_of_called
    rw [Option.map_some, Option.bind_some, Option.bind_some, hread]
    refine Option.map_congr fun parsed hparsed => ?_
    obtain ⟨-, r, -, -, rfl⟩ := Regex.exists_of_ofLexemes hparsed
    rfl

/-- The fields that the groups of a pattern keep. -/
def fieldsOf (ks : List Char) (kept : Text → Option (List CodeUnit)) : Fields :=
  ks.map fun key => (key, (kept (groupName key)).getD [])

/-- With other keys the groups of a pattern keep what they have kept before. -/
theorem capture_rename (h : Rekeys fresh called ks) (hks : ∀ key, .field key ∈ ps → key ∈ ks)
    (hfragment : ∀ key, .field key ∈ ps → Enclosed (fragment key).units)
    (hsame : ∀ key, .field key ∈ ps → fragment' (fresh key) = fragment key)
    (text : List CodeUnit) :
    (Regex.capture (Regex.anchored (splice fragment' [] (ps.map (Part.rename fresh)))) text).map
        (Option.map (fieldsOf (ks.map fresh))) =
      ((Regex.capture (Regex.anchored (splice fragment [] ps)) text).map
        (Option.map (fieldsOf ks))).map (Option.map (Fields.rename fresh)) := by
  rw [Regex.capture, Regex.capture, parse_splice_rename h hks hfragment hsame]
  cases hparsed : Regex.parse (Text.units (Regex.anchored (splice fragment [] ps))) with
  | none => rfl
  | some parsed =>
    have hlookup : ∀ key ∈ ks,
        (parsed.names.map fun q => (called q.1, q.2)).lookup (groupName (fresh key)) =
          parsed.names.lookup (groupName key) := by
      intro key hkey
      rw [← h.called_eq key hkey]
      exact lookup_map_fst fun q hq =>
        h.eq_of_called (name_of_parse_splice hks hfragment hparsed hq) ⟨key, hkey, rfl⟩
    change Except.ok _ = Except.ok _
    rw [Option.map_map, Option.map_map, Option.map_map]
    refine congrArg Except.ok (congrArg (Option.map · _) (funext fun kept => ?_))
    rw [Function.comp_apply, fieldsOf, Function.comp_apply, Function.comp_apply, Fields.rename,
      fieldsOf, List.map_map, List.map_map]
    refine List.map_congr_left fun key hkey => ?_
    rw [Function.comp_apply, hlookup key hkey]
    rfl

end

section

variable {table : Table Text} {f : Text} {fresh : Char → Char}

/-- With a fragment for each key, what a format finds is what the groups of its pattern keep. -/
theorem parse_eq_map_capture {fragment : Char → Text} (hend : (scan f).endsAlone = false)
    (hlookup : ∀ key, .field key ∈ parts f → table.lookup [key] = some (fragment key)) (t : Text) :
    parse table f t =
      (Regex.capture (Regex.anchored (splice fragment [] (parts f))) t.units).map
        (Option.map (fieldsOf (fieldKeys (parts f)))) := by
  rw [parse_of_pattern (pattern_eq_ok_iff.mpr ⟨hend, fragment, hlookup, rfl⟩)]
  refine congrArg (Except.map · _) (congrArg Option.map (funext fun of => ?_))
  exact List.map_map

/-- The fragment of a key, if there is one. -/
def fragmentOf (table : Table Text) (key : Char) : Text := (table.lookup [key]).getD []

theorem lookup_eq_fragmentOf {key : Char} (h : [key] ∈ table.map Prod.fst) :
    table.lookup [key] = some (fragmentOf table key) := by
  obtain ⟨entry, hentry, hkey⟩ := List.mem_map.mp h
  have hsome : (table.lookup [key]).isSome = true :=
    List.lookup_isSome_iff.mpr ⟨entry, hentry, beq_iff_eq.mpr hkey.symm⟩
  obtain ⟨fragment, hfragment⟩ := Option.isSome_iff_exists.mp hsome
  rw [fragmentOf, hfragment, Option.getD_some]

/-- Each fragment is found under the new key of its field. -/
theorem lookup_rename {ks : List Char} (hkeys : ∀ k ∈ table.map Prod.fst, ∃ key ∈ ks, k = [key])
    (hinj : ∀ k ∈ ks, ∀ l ∈ ks, fresh k = fresh l → k = l) {key : Char} (hkey : key ∈ ks) :
    (table.rename fresh).lookup [fresh key] = table.lookup [key] := by
  refine lookup_map_fst (g := List.map fresh) (a := [key]) fun entry hentry heq => ?_
  obtain ⟨k, hk, hentry⟩ := hkeys entry.1 (List.mem_map_of_mem hentry)
  rw [hentry] at heq ⊢
  rw [hinj k hk key hkey (List.cons.inj heq).1]

end

/-- With other keys for its fields, which tell them apart just as well, a format finds in a text
what it has found before. -/
theorem parse_renameKeys {table : Table Text} {f : Text} {ks : List Char} (hk : keys f = .ok ks)
    (htable : ∀ k, k ∈ table.map Prod.fst ↔ ∃ key ∈ ks, k = [key])
    (hfragment : ∀ k fragment, table.lookup k = some fragment → Enclosed fragment.units)
    {fresh : Char → Char} (hinj : ∀ k ∈ ks, ∀ l ∈ ks, fresh k = fresh l → k = l)
    (hpercent : ∀ k ∈ ks, fresh k ≠ '%') (t : Text) :
    parse (table.rename fresh) (renameKeys fresh f) t =
      (parse table f t).map (Option.map (Fields.rename fresh)) := by
  obtain ⟨hend, rfl⟩ := keys_eq_ok_iff.mp hk
  have hks {key : Char} (hkey : .field key ∈ parts f) : key ∈ fieldKeys (parts f) :=
    mem_fieldKeys.mpr hkey
  have hparts := parts_renameKeys fun key hkey => hpercent key (hks hkey)
  have hend' : (scan (renameKeys fresh f)).endsAlone = false := by rw [scan_renameKeys]
  have hlookup : ∀ key, .field key ∈ parts f →
      table.lookup [key] = some (fragmentOf table key) := fun key hkey =>
    lookup_eq_fragmentOf ((htable [key]).mpr ⟨key, hks hkey, rfl⟩)
  have hrename : ∀ key, .field key ∈ parts f →
      (table.rename fresh).lookup [fresh key] = table.lookup [key] := fun key hkey =>
    lookup_rename (fun k => (htable k).mp) hinj (hks hkey)
  have hsame : ∀ key, .field key ∈ parts f →
      fragmentOf (table.rename fresh) (fresh key) = fragmentOf table key := fun key hkey =>
    congrArg (Option.getD · []) (hrename key hkey)
  have hlookup' : ∀ key, .field key ∈ parts (renameKeys fresh f) →
      (table.rename fresh).lookup [key] = some (fragmentOf (table.rename fresh) key) := by
    intro key hkey
    rw [hparts] at hkey
    obtain ⟨p, hp, hkey⟩ := List.mem_map.mp hkey
    cases p with
    | text c => cases hkey
    | field k =>
      obtain rfl := Part.field.inj hkey
      rw [hrename k hp, hsame k hp, hlookup k hp]
  have hrekeys : Rekeys fresh (fun name => (((fieldKeys (parts f)).map fun k =>
      (groupName k, groupName (fresh k))).lookup name).getD name) (fieldKeys (parts f)) := by
    refine ⟨hinj, fun k hk => ?_⟩
    rw [lookup_map_key groupName groupName_injective _ hk, Option.getD_some]
  rw [parse_eq_map_capture hend' hlookup', parse_eq_map_capture hend hlookup, hparts,
    fieldKeys_rename hinj]
  exact capture_rename hrekeys (fun _ => hks)
    (fun key hkey => hfragment [key] _ (hlookup key hkey)) hsame t.units

/-- A key that is no letter will do, and fragments need not be balanced. -/
theorem parse_renameKeys_astral :
    parse [(['a'], "x)?(y".toList), (['b'], "\\d+".toList)] "%a-%b%a".toList "xy-12x".toList =
        .ok (some [('a', Text.units ['x']), ('b', Text.units ['1', '2'])]) ∧
      parse [(['😀'], "x)?(y".toList), (['a'], "\\d+".toList)] "%😀-%a%😀".toList "xy-12x".toList =
        .ok (some [('😀', Text.units ['x']), ('a', Text.units ['1', '2'])]) := by
  let table : Table Text := [(['a'], "x)?(y".toList), (['b'], "\\d+".toList)]
  have htable : ∀ k, k ∈ table.map Prod.fst ↔ ∃ key ∈ ['a', 'b'], k = [key] := by
    simp [table]
  have hfragment : ∀ k fragment, table.lookup k = some fragment → Enclosed fragment.units := by
    intro k fragment hlookup
    have hmem : fragment ∈ table.map Prod.snd := by
      obtain ⟨front, behind, htable, -⟩ := List.lookup_eq_some_iff.mp hlookup
      simp [htable]
    simp only [table, List.map_cons, List.map_nil, List.mem_cons, List.not_mem_nil, or_false]
      at hmem
    rcases hmem with rfl | rfl <;> exact ⟨by decide +kernel, by decide +kernel, by decide +kernel⟩
  have hparse : parse table "%a-%b%a".toList "xy-12x".toList =
      .ok (some [('a', Text.units ['x']), ('b', Text.units ['1', '2'])]) := by
    decide +kernel
  let fresh (key : Char) : Char := if key = 'a' then '😀' else 'a'
  have hformat : renameKeys fresh "%a-%b%a".toList = "%😀-%a%😀".toList := by decide +kernel
  have hrename : parse (table.rename fresh) (renameKeys fresh "%a-%b%a".toList) _ = _ :=
    parse_renameKeys (by decide +kernel : keys "%a-%b%a".toList = .ok ['a', 'b']) htable hfragment
      (by simp [fresh]) (by simp [fresh]) "xy-12x".toList
  rw [hformat, hparse] at hrename
  exact ⟨hparse, hrename⟩

/-- In a class that a fragment leaves open, the name of the next group tells the key. -/
theorem parse_renameKeys_openClass :
    (∀ fragment ∈ ["[".toList, "]".toList], Regex.namesGroup false (Text.units fragment) = false ∧
      Regex.refersByName (Text.units fragment) = false) ∧
      parse [(['a'], "[".toList), (['b'], "]".toList)] "%a%b".toList ['8'] =
        .ok (some [('a', Text.units ['8']), ('b', [])]) ∧
      parse (Table.rename (fun key => if key = 'b' then 'c' else key)
          [(['a'], "[".toList), (['b'], "]".toList)])
        (renameKeys (fun key => if key = 'b' then 'c' else key) "%a%b".toList) ['8'] = .ok none :=
  ⟨by decide +kernel, by decide +kernel, by decide +kernel⟩

end Format

end CaseFiles
