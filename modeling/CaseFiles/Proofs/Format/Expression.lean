import CaseFiles.Proofs.Distinct
import CaseFiles.Proofs.Format.Source
import CaseFiles.Proofs.Regex.Reading

/-!
# The expression of a pattern

The source of the parts of a format is read as an expression with one group for each key, numbered
in the order of first use, and a reference back to it for every further use. Main statement:
`parse_anchored`.
-/

namespace CaseFiles

namespace Format

open Regex (Fragment Lexeme Reader groupNames)

/-- The keys that are used first among these parts, given the keys of the fields before them. -/
def newKeys (seen : List Char) : List Part → List Char
  | [] => []
  | .text _ :: ps => newKeys seen ps
  | .field key :: ps =>
    if key ∈ seen then newKeys (key :: seen) ps else key :: newKeys (key :: seen) ps

theorem newKeys_eq (seen : List Char) (ps : List Part) :
    newKeys seen ps = ((ps.filterMap Part.key?).filter (· ∉ seen)).eraseDups := by
  induction ps generalizing seen with
  | nil => rfl
  | cons p ps ih =>
    cases p with
    | text c => exact ih seen
    | field key =>
      have hkeys : (Part.field key :: ps).filterMap Part.key? = key :: ps.filterMap Part.key? := rfl
      rw [newKeys, ih (key :: seen), hkeys]
      by_cases hk : key ∈ seen
      · rw [if_pos hk, List.filter_cons_of_neg (by simp [hk])]
        refine congrArg List.eraseDups (List.filter_congr fun k _ => ?_)
        by_cases hkk : k = key <;> simp [hkk, hk]
      · rw [if_neg hk, List.filter_cons_of_pos (by simp [hk]), List.eraseDups_cons,
          List.filter_filter]
        refine congrArg (key :: ·) (congrArg List.eraseDups (List.filter_congr fun k _ => ?_))
        by_cases hkk : k = key <;> simp [hkk]

/-- The keys of a format are those that are used first among all its parts. -/
theorem newKeys_nil (ps : List Part) : newKeys [] ps = fieldKeys ps := by
  rw [newKeys_eq, fieldKeys]
  simp

/-- No key of a format is listed twice. -/
theorem nodup_fieldKeys (ps : List Part) : (fieldKeys ps).Nodup := nodup_eraseDups _

/-- The number of the group of a key: the keys are counted from 1 in the order of first use. -/
def groupIndex (ps : List Part) (key : Char) : Nat := (fieldKeys ps).idxOf key + 1

/-- The names of the groups and their numbers. -/
def groupTable (ps : List Part) : List (Text × Nat) :=
  (fieldKeys ps).map fun key => (groupName key, groupIndex ps key)

theorem map_groupIndex (ps : List Part) :
    (fieldKeys ps).map (groupIndex ps) = List.range' 1 (fieldKeys ps).length := by
  apply List.ext_getElem (by simp)
  intro i hi _
  rw [List.getElem_map, List.getElem_range', groupIndex,
    (nodup_fieldKeys ps).idxOf_getElem i (by simpa using hi)]
  omega

variable (frag : Char → Fragment .choice) (index : Char → Nat)

/-- The terms of one part. -/
def partTerms (seen : List Char) : Part → List Regex
  | .text c => (Text.charUnits c).map fun u => .unit (.single u)
  | .field key =>
    if key ∈ seen then [.back (index key)] else [.group (index key) (frag key).regex]

/-- The terms of parts. -/
def terms (seen : List Char) : List Part → List Regex
  | [] => []
  | p :: ps => partTerms frag index seen p ++ terms (p.key?.toList ++ seen) ps

/-- The expression of the parts of a format, from the start of the text to its end. -/
def expression (ps : List Part) : Regex :=
  .seq (.edge .start)
    ((terms frag (groupIndex ps) [] ps).foldr .seq (.seq (.edge .finish) .empty))

variable {index}

/-- The groups of the parts are named after the keys that are used first. -/
theorem groupNames_parts {ps : List Part} {seen : List Char} {n : Nat}
    (h : (newKeys seen ps).map index = List.range' (n + 1) (newKeys seen ps).length)
    (xs : List Lexeme) :
    groupNames n (partsLexemes frag seen ps ++ xs) =
      (newKeys seen ps).map (fun key => (groupName key, index key)) ++
        groupNames (n + (newKeys seen ps).length) xs := by
  induction ps generalizing seen n with
  | nil => rfl
  | cons p ps ih =>
    rw [partsLexemes, List.append_assoc]
    cases p with
    | text c =>
      rw [partLexemes, Regex.charLexemes, Regex.groupNames_units]
      exact ih h
    | field key =>
      by_cases hk : key ∈ seen
      · rw [newKeys, if_pos hk] at h ⊢
        rw [partLexemes, if_pos hk]
        exact ih h
      · rw [newKeys, if_neg hk] at h ⊢
        rw [partLexemes, if_neg hk]
        rw [List.map_cons, List.length_cons, List.range'_succ, List.cons.injEq] at h
        have hrest := ih (n := n + 1) h.2
        have hlength : n + ((newKeys (key :: seen) ps).length + 1) =
            n + 1 + (newKeys (key :: seen) ps).length := by omega
        rw [List.cons_append, List.cons_append, groupNames, List.append_assoc,
          Regex.groupNames_fragment, List.map_cons, h.1, List.length_cons, hlength]
        exact congrArg ((groupName key, n + 1) :: ·) hrest

/-- The lexemes of a part add its terms; the group of a key that is used first is counted. -/
theorem foldlM_part {names : List (Text × Nat)} (total : Nat) {p : Part} {seen : List Char}
    (hnames : ∀ key, p = .field key → names.lookup (groupName key) = some (index key))
    {r : Reader} (hindex : ∀ key, p = .field key → key ∉ seen → index key = r.count + 1) :
    ∃ b, (partLexemes frag seen p).foldlM (Reader.step names total) r =
      some { r.push (partTerms frag index seen p).reverse b with
        count := r.count + (newKeys seen [p]).length } := by
  cases p with
  | text c => exact Regex.foldlM_charLexemes names total c r
  | field key =>
    by_cases hk : key ∈ seen
    · rw [partLexemes, partTerms, newKeys, if_pos hk, if_pos hk, if_pos hk]
      refine ⟨true, ?_⟩
      rw [List.foldlM_cons, Reader.step, hnames key rfl]
      rfl
    · rw [partLexemes, partTerms, newKeys, if_neg hk, if_neg hk, if_neg hk,
        hindex key rfl hk]
      obtain ⟨top, b, hread, hopen, hindex, hbody⟩ :=
        (Regex.reads_fragment (frag key) : Regex.Reads names total (frag key))
          ⟨.new (.capture (some (groupName key))) (r.count + 1), r.top :: r.outer, r.count + 1,
            false⟩ rfl
      have hclose : top.close = .group (r.count + 1) (frag key).regex := by
        rw [Regex.Frame.close, hopen, hindex, hbody]
        rfl
      refine ⟨top.repeatable, ?_⟩
      rw [List.cons_append, List.foldlM_cons]
      change ((frag key).lexemes ++ [Lexeme.closing]).foldlM (Reader.step names total)
        ⟨.new (.capture (some (groupName key))) (r.count + 1), r.top :: r.outer, r.count + 1,
          false⟩ = _
      rw [List.foldlM_append, hread]
      change some (Reader.mk (r.top.add top.close) r.outer (r.count + 1) top.repeatable) = _
      rw [hclose]
      rfl

/-- The lexemes of parts add their terms. -/
theorem foldlM_parts {names : List (Text × Nat)} (total : Nat) {ps : List Part} {seen : List Char}
    (hnames : ∀ key, .field key ∈ ps → names.lookup (groupName key) = some (index key))
    {r : Reader} (hindex : (newKeys seen ps).map index =
      List.range' (r.count + 1) (newKeys seen ps).length) :
    ∃ b n, (partsLexemes frag seen ps).foldlM (Reader.step names total) r =
      some { r.push (terms frag index seen ps).reverse b with count := n } := by
  induction ps generalizing seen r with
  | nil => exact ⟨r.canRepeat, r.count, rfl⟩
  | cons p ps ih =>
    have hnew : newKeys seen (p :: ps) = newKeys seen [p] ++ newKeys (p.key?.toList ++ seen) ps := by
      cases p with
      | text c => rfl
      | field key =>
        by_cases hk : key ∈ seen
        · rw [newKeys, newKeys, if_pos hk, if_pos hk]
          rfl
        · rw [newKeys, newKeys, if_neg hk, if_neg hk]
          rfl
    rw [hnew, List.map_append, List.length_append, ← List.range'_append_1] at hindex
    obtain ⟨hfirst, hmore⟩ := List.append_inj hindex (by simp)
    obtain ⟨b, hpart⟩ := foldlM_part frag total (r := r)
      (fun key hp => hnames key (hp ▸ List.mem_cons_self)) (fun key hp hk => by
        rw [hp, newKeys, if_neg hk] at hfirst
        exact (List.cons.inj hfirst).1)
    obtain ⟨c, n, hparts⟩ := ih
      (fun key hk => hnames key (List.mem_cons_of_mem p hk))
      (r := { r.push (partTerms frag index seen p).reverse b with
        count := r.count + (newKeys seen [p]).length })
      (hmore.trans (congrArg (List.range' · _) (Nat.add_right_comm _ _ _)))
    refine ⟨c, n, ?_⟩
    rw [partsLexemes, List.foldlM_append, hpart]
    apply hparts.trans
    simp [Reader.push, terms]

/-- The group of each key is found by its name. -/
theorem lookup_groupTable {ps : List Part} {key : Char} (h : .field key ∈ ps) :
    (groupTable ps).lookup (groupName key) = some (groupIndex ps key) :=
  lookup_map_key groupName groupName_injective _ (mem_fieldKeys.mpr h)

/-- The anchored source of parts is read as their expression, with the groups named after their
keys. -/
theorem parse_anchored (ps : List Part) :
    Regex.parse (Text.units (Regex.anchored (source frag [] ps))) =
      some ⟨expression frag ps, groupTable ps⟩ := by
  have hindex := map_groupIndex ps
  rw [← newKeys_nil] at hindex
  have hnames : groupNames 0 (anchoredLexemes frag ps) = groupTable ps := by
    have hparts := groupNames_parts frag (n := 0) hindex [.edge .finish]
    rw [newKeys_nil] at hparts
    exact hparts.trans (List.append_nil _)
  have hnodup : ((groupTable ps).map Prod.fst).Nodup := by
    rw [groupTable, List.map_map]
    exact (nodup_fieldKeys ps).map fun _ _ h => groupName_injective h
  have hsteps (total : Nat) : ∃ n,
      (anchoredLexemes frag ps).foldlM (Reader.step (groupTable ps) total) Reader.start =
        some ⟨⟨.plain, 0, [], Regex.edge .finish ::
          ((terms frag (groupIndex ps) [] ps).reverse ++ [Regex.edge .start])⟩, [], n, false⟩ := by
    obtain ⟨b, n, hread⟩ := foldlM_parts frag total (fun _ hk => lookup_groupTable hk)
      (r := { Reader.start with top := Reader.start.top.add (.edge .start) }) hindex
    refine ⟨n, ?_⟩
    rw [anchoredLexemes, List.cons_append, List.foldlM_cons]
    change (partsLexemes frag [] ps ++ [Lexeme.edge .finish]).foldlM
      (Reader.step (groupTable ps) total)
      { Reader.start with top := Reader.start.top.add (.edge .start) } = _
    rw [List.foldlM_append, hread]
    rfl
  have hrow : (Regex.edge .finish ::
      ((terms frag (groupIndex ps) [] ps).reverse ++ [Regex.edge .start])).foldl
        (fun rest t => .seq t rest) .empty = expression frag ps := by
    rw [List.foldl_cons, List.foldl_append, List.foldl_reverse]
    rfl
  obtain ⟨n, hfold⟩ := hsteps (Regex.groupCount (anchoredLexemes frag ps))
  rw [Regex.parse, lexemes_anchored, Option.bind_some, Regex.ofLexemes, hnames, if_pos hnodup,
    hfold]
  exact congrArg (fun e => some (Regex.Parsed.mk e _)) hrow

end Format

end CaseFiles
