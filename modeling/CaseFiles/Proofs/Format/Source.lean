import CaseFiles.Proofs.Format.Splicing

/-!
# The source of a pattern

What the parts of a format become in its pattern, when the fragments of the fields are written
regular fragments, and the lexemes that this source is read as. Main statements: the pattern of a
format is the source of its parts (`pattern_eq`), and an anchored source is read as the lexemes of
its parts (`lexemes_anchored`).
-/

namespace CaseFiles

namespace Format

open Regex (Fragment Lexeme Lexes unitOf)

variable (frag : Char → Fragment .choice)

/-- The source of one part, given the keys of the fields before it. -/
def partSource (seen : List Char) : Part → Text
  | .text c => Regex.quoteChar c
  | .field key => if key ∈ seen then againSource key else groupSource key (frag key).text

/-- The source of parts, given the keys of the fields before them. -/
def source (seen : List Char) : List Part → Text
  | [] => []
  | p :: ps => partSource frag seen p ++ source (p.key?.toList ++ seen) ps

/-- The written fragments are spliced in. -/
theorem source_eq_splice (seen : List Char) (ps : List Part) :
    source frag seen ps = splice (fun key => (frag key).text) seen ps := by
  induction ps generalizing seen with
  | nil => rfl
  | cons p ps ih =>
    rw [source, splice, ih]
    cases p <;> rfl

/-- The source of plain characters is their quotation, whatever comes after. -/
theorem source_texts (seen : List Char) (t : Text) (ps : List Part) :
    source frag seen (t.map .text ++ ps) = Regex.quote t ++ source frag seen ps := by
  induction t with
  | nil => rfl
  | cons c t ih =>
    rw [List.map_cons, List.cons_append, source, Regex.quote, List.flatMap_cons, List.append_assoc]
    exact congrArg (Regex.quoteChar c ++ ·) ih

/-- The pattern of a format whose fields all have regular fragments is the source of its parts. -/
theorem pattern_eq {table : Table Text} {f : Text} (he : (scan f).endsAlone = false)
    (ht : ∀ key, .field key ∈ parts f → table.lookup [key] = some (frag key).text) :
    pattern table f =
      .ok ⟨source frag [] (parts f), (fieldKeys (parts f)).map fun key => (key, groupName key)⟩ := by
  rw [source_eq_splice]
  exact pattern_eq_ok_iff.mpr ⟨he, _, ht, rfl⟩

/-- The lexemes of one part. -/
def partLexemes (seen : List Char) : Part → List Lexeme
  | .text c => Regex.charLexemes c
  | .field key =>
    if key ∈ seen then [.named (groupName key)]
    else .opening (.capture (some (groupName key))) :: (frag key).lexemes ++ [.closing]

/-- The lexemes of parts. -/
def partsLexemes (seen : List Char) : List Part → List Lexeme
  | [] => []
  | p :: ps => partLexemes frag seen p ++ partsLexemes (p.key?.toList ++ seen) ps

/-- The lexemes of parts between those of the anchors. -/
def anchoredLexemes (ps : List Part) : List Lexeme :=
  .edge .start :: partsLexemes frag [] ps ++ [.edge .finish]

/-- The source of parts is read as their lexemes in front of any text. References are read as such
only where some group has a name. -/
theorem lexes_source {strict : Bool} {ps : List Part} {seen : List Char} {rest : List CodeUnit}
    {xs : List Lexeme} (hstrict : ∀ key, .field key ∈ ps → strict = true)
    (h : Lexes strict rest xs) :
    Lexes strict (Text.units (source frag seen ps) ++ rest) (partsLexemes frag seen ps ++ xs) := by
  induction ps generalizing seen with
  | nil => exact h
  | cons p ps ih =>
    have hps : Lexes strict _ (partsLexemes frag (p.key?.toList ++ seen) ps ++ xs) :=
      ih fun key hk => hstrict key (List.mem_cons_of_mem p hk)
    rw [source, partsLexemes, Text.units_append, List.append_assoc, List.append_assoc]
    cases p with
    | text c => exact Regex.lexes_quoteChar c hps
    | field key =>
      obtain rfl := hstrict key List.mem_cons_self
      by_cases hk : key ∈ seen
      · rw [partSource, partLexemes, if_pos hk, if_pos hk]
        exact (peels_again key _).lexes hps
      · rw [partSource, partLexemes, if_neg hk, if_neg hk, units_groupSource]
        have hclose : Lexes true (unitOf ')' :: _) (.closing :: _) :=
          Lexes.cons rfl (Nat.le_refl _) hps
        have hbody := Regex.lexes_fragment (frag key) (Or.inr (by simp [Regex.NotLazy, unitOf]))
          hclose
        have hopen := (peels_opening key _).lexes hbody
        simpa using hopen

/-- Where some part is a field, some group has a name. -/
theorem namesGroup_source {ps : List Part} {key : Char} (h : .field key ∈ ps)
    (rest : List CodeUnit) :
    Regex.namesGroup false (Text.units (source frag [] ps) ++ rest) = true := by
  rw [source_eq_splice]
  exact namesGroup_splice _ h rest

/-- An anchored source is read as the lexemes of its parts between those of the anchors. -/
theorem lexemes_anchored (ps : List Part) :
    Regex.lexemes (Regex.namesGroup false (Text.units (Regex.anchored (source frag [] ps))))
        (Text.units (Regex.anchored (source frag [] ps))) =
      some (anchoredLexemes frag ps) := by
  rw [namesGroup_anchored, units_anchored]
  refine Regex.lexemes_of_lexes (Lexes.cons rfl (Nat.le_refl _) ?_)
  refine lexes_source frag (fun key hk => namesGroup_source frag hk _) ?_
  exact Lexes.cons rfl (Nat.le_refl _) (Lexes.nil _)

end Format

end CaseFiles
