import CaseFiles.Proofs.Format.Expression

/-!
# Groups are declared before they are used

The pattern of a format is told position by position: what a token becomes depends on the tokens
before it only by whether one of them is a placeholder with the same key. So each group is declared
exactly once, by the first placeholder for its key, and every reference back stands behind the
declaration. Main statement: `pattern_declares`.
-/

namespace CaseFiles

namespace Format

/-- What a token becomes in a pattern whose fields have the fragments of a table and whose groups have
these names, where the tokens before it are given. A placeholder declares the group of its key if
there is none for this key before it, and refers back to it otherwise. -/
def tokenSource (table : Table Text) (groups : List (Char × Text)) (before : List Token) :
    Token → Option Text
  | .literal c => some (Regex.quoteChar c)
  | .placeholder key =>
    if key = '%' then some (Regex.quoteChar '%')
    else if .placeholder key ∈ before then
      (groups.lookup key).map fun name => ['\\', 'k', '<'] ++ name ++ ['>']
    else do
      let name ← groups.lookup key
      let fragment ← table.lookup [key]
      return ['(', '?', '<'] ++ name ++ ['>'] ++ fragment ++ [')']

section

variable (fragment : Char → Text)

/-- In what order the fields were used before does not matter. -/
theorem splicePart_congr {seen seen' : List Char} (h : ∀ key, key ∈ seen ↔ key ∈ seen') (p : Part) :
    splicePart fragment seen p = splicePart fragment seen' p := by
  cases p with
  | text c => rfl
  | field key => simp only [splicePart, h key]

/-- What each of some parts becomes, given the keys of the fields before all of them. -/
def pieces (seen : List Char) (ps : List Part) : List Text :=
  ps.mapIdx fun i p => splicePart fragment (seen ++ (ps.take i).filterMap Part.key?) p

theorem getElem?_pieces (seen : List Char) (ps : List Part) (i : Nat) :
    (pieces fragment seen ps)[i]? =
      ps[i]?.map (splicePart fragment (seen ++ (ps.take i).filterMap Part.key?)) :=
  List.getElem?_mapIdx

/-- The pieces are put together one after the other. -/
theorem splice_eq_flatten (seen : List Char) (ps : List Part) :
    splice fragment seen ps = (pieces fragment seen ps).flatten := by
  induction ps generalizing seen with
  | nil => rfl
  | cons p ps ih =>
    have hrest : (pieces fragment seen (p :: ps)) =
        splicePart fragment seen p :: pieces fragment (p.key?.toList ++ seen) ps := by
      rw [pieces, List.mapIdx_cons, List.take_zero, List.filterMap_nil, List.append_nil]
      refine congrArg (_ :: ·) (List.mapIdx_eq_mapIdx_iff.mpr fun i _ => ?_)
      refine splicePart_congr fragment (fun key => ?_) _
      rw [List.take_succ_cons, List.filterMap_cons]
      cases p.key? <;> simp [or_left_comm]
    rw [splice, hrest, List.flatten_cons, ih]

end

/-- A part of a format becomes what its token becomes. -/
theorem tokenSource_eq {table : Table Text} {fragment : Char → Text} {before after : List Token}
    {t : Token}
    (hfragment : ∀ key, .field key ∈ (before ++ t :: after).map Token.part →
      table.lookup [key] = some (fragment key)) :
    tokenSource table
        ((fieldKeys ((before ++ t :: after).map Token.part)).map fun key => (key, groupName key))
        before t =
      some (splicePart fragment ((before.map Token.part).filterMap Part.key?) t.part) := by
  cases t with
  | literal c => rfl
  | placeholder key =>
    by_cases hkey : key = '%'
    · rw [tokenSource, if_pos hkey, Token.part, if_pos hkey]
      rfl
    · have hpart : (Token.placeholder key).part = .field key := part_eq_field_iff.mpr ⟨rfl, hkey⟩
      have hmem : .field key ∈ (before ++ .placeholder key :: after).map Token.part :=
        List.mem_map.mpr ⟨_, List.mem_append_right before List.mem_cons_self, hpart⟩
      have hbefore : key ∈ (before.map Token.part).filterMap Part.key? ↔
          .placeholder key ∈ before := by
        rw [← List.mem_eraseDups]
        change key ∈ fieldKeys (before.map Token.part) ↔ _
        simp only [mem_fieldKeys, List.mem_map, part_eq_field_iff]
        constructor
        · rintro ⟨t, ht, rfl, -⟩
          exact ht
        · exact fun h => ⟨_, h, rfl, hkey⟩
      have hname := lookup_map_key (fun key => key) (fun h => h) groupName (mem_fieldKeys.mpr hmem)
      rw [tokenSource, if_neg hkey, hname, hfragment key hmem, hpart, splicePart]
      simp only [hbefore]
      split <;> rfl

/-- The groups of a pattern belong to the keys of the format in the order of first use, and their
names are identifiers of which no two are the same. The source is what the tokens become, one after
the other: the first placeholder for a key declares the group around the fragment of the key, and
every later one refers back to it. -/
theorem pattern_declares {table : Table Text} {f : Text} {p : Pattern}
    (h : pattern table f = .ok p) :
    keys f = .ok (p.groups.map Prod.fst) ∧ (p.groups.map Prod.snd).Nodup ∧
      (∀ name ∈ p.groups.map Prod.snd, Text.isIdentifier name = true) ∧
      ∃ sources : List Text, p.source = sources.flatten ∧
        sources.length = (scan f).tokens.length ∧
        ∀ i t, (scan f).tokens[i]? = some t →
          tokenSource table p.groups ((scan f).tokens.take i) t = sources[i]? := by
  obtain ⟨hend, fragment, hfragment, rfl⟩ := pattern_eq_ok_iff.mp h
  refine ⟨keys_eq_ok_iff.mpr ⟨hend, ?_⟩, ?_, ?_, pieces fragment [] (parts f),
    splice_eq_flatten fragment [] _, ?_, fun i t ht => ?_⟩
  · rw [List.map_map]
    exact List.map_id _
  · rw [List.map_map]
    exact (nodup_fieldKeys _).map fun _ _ => groupName_injective
  · simp only [List.map_map, List.mem_map]
    rintro name ⟨key, -, rfl⟩
    exact isIdentifier_groupName key
  · rw [pieces, List.length_mapIdx, parts, List.length_map]
  · obtain ⟨hi, hget⟩ := List.getElem?_eq_some_iff.mp ht
    have hsplit : (scan f).tokens =
        (scan f).tokens.take i ++ t :: (scan f).tokens.drop (i + 1) := by
      rw [← hget, List.getElem_cons_drop, List.take_append_drop]
    have hparts : parts f =
        ((scan f).tokens.take i ++ t :: (scan f).tokens.drop (i + 1)).map Token.part := by
      rw [← hsplit, parts]
    have hsource := tokenSource_eq (hparts ▸ hfragment)
    rw [← hparts] at hsource
    rw [hsource, getElem?_pieces, parts, List.getElem?_map, ht, List.nil_append, ← List.map_take]
    rfl

/-- A key outside of the basic plane that is used twice, with an escaped percent sign between. -/
theorem pattern_declares_astral :
    ∃ p, pattern [(['😀'], "[0-9]+".toList)] "%😀-%%%😀".toList = .ok p ∧
      p.source = "(?<p128512>[0-9]+)-%\\k<p128512>".toList ∧
        keys "%😀-%%%😀".toList = .ok (p.groups.map Prod.fst) := by
  have hpattern : pattern [(['😀'], "[0-9]+".toList)] "%😀-%%%😀".toList =
      .ok ⟨"(?<p128512>[0-9]+)-%\\k<p128512>".toList, [('😀', "p128512".toList)]⟩ := by
    decide +kernel
  exact ⟨_, hpattern, rfl, (pattern_declares hpattern).1⟩

end Format

end CaseFiles
