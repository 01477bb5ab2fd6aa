import CaseFiles.Format.GlobPattern
import CaseFiles.Proofs.Format.Filling
import CaseFiles.Proofs.Glob.Finding
import Mathlib.Data.List.Forall2

/-!
# The glob of a format against what the format is rendered into

A format falls into segments at its plain slashes, and so do its glob and whatever it is rendered
into. The glob of a segment takes what the segment is rendered into, unless it is tested by an ending
in which a character is quoted. Main statements: `suits_rendered`, `fits_rendered`.
-/

namespace CaseFiles

open CaseFiles.Path (Plain splitSlash)

namespace Glob

/-- A name for one part of a glob: for a globstar, one that it takes. -/
def Suits (p name : Text) : Prop :=
  (p = stars ∧ isHidden name = false) ∨ (Segment.ofText p).test name = true

theorem ofText_stars : Segment.ofText stars = .globstar := rfl

/-- How a part that is no globstar is read. -/
theorem ofText_of_ne_stars {p : Text} (hp : p ≠ stars) :
    Segment.ofText p =
      if p.head? = some '*' ∧ (p.dropWhile (· == '*')).all (· ∉ unfit) then
        .ending (p.dropWhile (· == '*'))
      else if (piecesOf p).contains .star then .wild (piecesOf p)
      else .literal (unquote p) :=
  if_neg hp

theorem piecesOf_cons {c : Char} (hbackslash : c ≠ '\\') (hstar : c ≠ '*') (rest : Text) :
    piecesOf (c :: rest) = .char c :: piecesOf rest := by
  rw [piecesOf]
  · rintro rfl
    exact absurd rfl hbackslash
  · rintro d _ rfl
    exact absurd rfl hbackslash
  · exact hstar

/-- A globstar that comes first takes one more name. -/
theorem Fits.takeMore {listing : Bool} {rest : List Segment} {n : Text} {ns : List Text}
    (h : Fits listing (.globstar :: rest) ns) (hn : isHidden n = false) :
    Fits true (.globstar :: rest) (n :: ns) := by
  have hcons {a : List Text} (ha : ∀ m ∈ a, isHidden m = false) :
      ∀ m ∈ n :: a, isHidden m = false := by
    intro m hm
    rcases List.mem_cons.mp hm with rfl | hm
    · exact hn
    · exact ha m hm
  by_cases hrest : rest = []
  · rw [hrest, fits_closing_iff] at h ⊢
    exact ⟨hcons h.1, fun _ => List.cons_ne_nil n ns⟩
  · rw [fits_globstar_iff hrest] at h ⊢
    obtain ⟨a, b, rfl, hhidden, hfits⟩ := h
    exact ⟨n :: a, b, rfl, hcons hhidden, hfits⟩

/-- What fits looking through a directory fits going on from it. -/
theorem Fits.enter {listing : Bool} {segments : List Segment} {ns : List Text}
    (h : Fits true segments ns) : Fits listing segments ns := by
  cases h with
  | stars hidden ne => exact .stars hidden fun _ => ne rfl
  | across ne hidden fits => exact .across ne hidden fits
  | last test => exact .last test
  | step test ne fits => exact .step test ne fits

/-- Names that suit the parts of a glob one by one fit its segments. -/
theorem fits_collapse {listing : Bool} {parts names : List Text} (hne : parts ≠ [])
    (h : List.Forall₂ Suits parts names) :
    Fits listing ((collapse parts).map .ofText) names := by
  induction h generalizing listing with
  | nil => exact absurd rfl hne
  | @cons p n rest ns hp hrest ih =>
    cases hrest with
    | nil =>
      rw [collapse, List.map_singleton]
      rcases hp with ⟨rfl, hn⟩ | htest
      · exact .stars (by simpa using hn) fun _ => List.cons_ne_nil _ _
      · exact .last htest
    | @cons u m rest ms hu hrest =>
      have hnext : m :: ms ≠ [] := List.cons_ne_nil m ms
      rw [collapse]
      by_cases hp' : p = stars
      · have hn : isHidden n = false := by
          rcases hp with ⟨-, hn⟩ | htest
          · exact hn
          · rw [hp'] at htest
            cases htest
        by_cases hu' : u = stars
        · rw [if_pos ⟨hp', hu'⟩]
          have hfits : Fits true ((collapse (u :: rest)).map .ofText) (m :: ms) :=
            ih (List.cons_ne_nil u rest)
          obtain ⟨more, hmore⟩ := collapse_cons u rest
          rw [hmore, hu', List.map_cons, ofText_stars] at hfits ⊢
          exact (hfits.takeMore hn).enter
        · rw [if_neg fun h => hu' h.2, hp', List.map_cons, ofText_stars]
          refine .across (a := [n]) ?_ (by simpa using hn) (ih (List.cons_ne_nil u rest))
          obtain ⟨more, hmore⟩ := collapse_cons u rest
          rw [hmore]
          exact List.cons_ne_nil _ _
      · rw [if_neg fun h => hp' h.1, List.map_cons]
        have htest := hp.resolve_left fun h => hp' h.1
        exact .step htest hnext (ih (List.cons_ne_nil u rest))

end Glob

namespace Format

/-- What the parts between plain slashes are; there is always at least one segment. -/
def segments : List Part → List (List Part)
  | [] => [[]]
  | p :: ps =>
    if p = .text '/' then [] :: segments ps
    else
      match segments ps with
      | [] => [[p]]
      | q :: qs => (p :: q) :: qs

theorem segments_ne_nil (ps : List Part) : segments ps ≠ [] := by
  cases ps with
  | nil => exact List.cons_ne_nil _ _
  | cons p ps =>
    rw [segments]
    split
    · exact List.cons_ne_nil _ _
    · split <;> exact List.cons_ne_nil _ _

/-- A text without slashes goes into the first part of what comes after it. -/
theorem splitSlash_append_of_not_mem {a t p : Text} {ps : List Text} (ha : '/' ∉ a)
    (ht : splitSlash t = p :: ps) : splitSlash (a ++ t) = (a ++ p) :: ps := by
  induction a with
  | nil => exact ht
  | cons c cs ih =>
    have hc : c ≠ '/' := fun he => ha (he ▸ List.mem_cons_self)
    rw [List.cons_append, splitSlash, if_neg hc, ih fun h => ha (List.mem_cons_of_mem c h)]
    rfl

/-- A format and what it is filled into have the same segments if only plain slashes become
slashes. -/
theorem splitSlash_fill {spell value : Char → Text} (hslash : spell '/' = ['/'])
    (hspell : ∀ c, c ≠ '/' → '/' ∉ spell c) {ps : List Part}
    (hvalue : ∀ key, .field key ∈ ps → '/' ∉ value key) :
    splitSlash (fill spell value ps) = (segments ps).map (fill spell value) := by
  induction ps with
  | nil => rfl
  | cons p ps ih =>
    have hps := ih fun key hk => hvalue key (List.mem_cons_of_mem p hk)
    rw [segments]
    by_cases hp : p = .text '/'
    · rw [if_pos hp, hp, fill_text, hslash, List.singleton_append, Path.splitSlash_slash, hps]
      rfl
    · rw [if_neg hp]
      cases hs : segments ps with
      | nil => exact absurd hs (segments_ne_nil ps)
      | cons q qs =>
        rw [hs, List.map_cons] at hps
        have hfree : '/' ∉ fillPart spell value p := by
          cases p with
          | text c => exact hspell c fun hc => hp (hc ▸ rfl)
          | field key => exact hvalue key List.mem_cons_self
        exact splitSlash_append_of_not_mem hfree hps

/-- The glob of some parts. -/
def globOf (q : List Part) : Text := fill Glob.quoteChar (fun _ => ['*']) q

/-- What some parts of a format are rendered into. -/
def rendered (name ext : Text) (q : List Part) : Text := fill (fun c => [c]) (caseValue name ext) q

/-- The glob of a format that locates test cases is that of its parts. -/
theorem globPattern_eq {f : Text} (hf : validate f = .ok ()) :
    globPattern f = .ok (globOf (parts f)) := by
  obtain ⟨he, hfields, -, -⟩ := validate_eq_ok_iff.mp hf
  apply renderWith_eq_fill he
  intro key hk
  rcases hfields key hk with rfl | rfl <;> rfl

theorem slash_not_mem_quoteChar {c : Char} (hc : c ≠ '/') : '/' ∉ Glob.quoteChar c := by
  unfold Glob.quoteChar
  split <;> simp [hc.symm]

/-- The parts of the glob are the globs of the segments. -/
theorem splitSlash_globOf (ps : List Part) :
    splitSlash (globOf ps) = (segments ps).map globOf :=
  splitSlash_fill rfl (fun _ => slash_not_mem_quoteChar) fun _ _ => by simp

/-- The segments of a rendered path are what those of the format are rendered into. -/
theorem splitSlash_rendered {name ext : Text} (hname : '/' ∉ name) (hext : '/' ∉ ext)
    (ps : List Part) :
    splitSlash (rendered name ext ps) = (segments ps).map (rendered name ext) := by
  refine splitSlash_fill rfl (fun c hc => ?_) fun key _ => ?_
  · rw [List.mem_singleton]
    exact hc.symm
  · unfold caseValue
    split <;> assumption

/-- What a part is to a test piece by piece. -/
def piece : Part → Glob.Piece
  | .text c => .char c
  | .field _ => .star

/-- The pieces of the glob of a segment are those of its parts. -/
theorem piecesOf_globOf (q : List Part) : Glob.piecesOf (globOf q) = q.map piece := by
  induction q with
  | nil => rfl
  | cons p q ih =>
    cases p with
    | field key => exact congrArg (Glob.Piece.star :: ·) ih
    | text c =>
      have hglob : globOf (.text c :: q) = Glob.quoteChar c ++ globOf q := rfl
      rw [hglob, Glob.quoteChar, List.map_cons, ← ih]
      split
      · rfl
      · rename_i hc
        have hbackslash : c ≠ '\\' := fun h => hc (h ▸ by decide)
        have hstar : c ≠ '*' := fun h => hc (h ▸ by decide)
        rw [List.singleton_append, Glob.piecesOf_cons hbackslash hstar]
        rfl

/-- Pieces take what their parts are filled into. -/
theorem matchPieces_piece (name ext : Text) (q : List Part) :
    Glob.matchPieces (q.map piece) (rendered name ext q) = true := by
  induction q with
  | nil => rfl
  | cons p q ih =>
    cases p with
    | text c =>
      have hstep : Glob.matchPieces (.char c :: q.map piece) (c :: rendered name ext q) =
          (c == c && Glob.matchPieces (q.map piece) (rendered name ext q)) := rfl
      exact hstep.trans (by rw [ih, beq_self_eq_true, Bool.and_true])
    | field key => exact Glob.matchPieces_star_iff.mpr ⟨_, _, rfl, ih⟩

theorem star_mem_globOf {q : List Part} (h : .star ∈ q.map piece) : '*' ∈ globOf q := by
  obtain ⟨p, hp, hpiece⟩ := List.mem_map.mp h
  cases p with
  | text c => exact nomatch hpiece
  | field key => exact List.mem_flatMap.mpr ⟨_, hp, List.mem_singleton.mpr rfl⟩

/-- Parts whose glob has no star in it are plain characters. -/
theorem eq_map_text_of_star_not_mem {q : List Part} (h : .star ∉ q.map piece) :
    ∃ t : Text, q = t.map .text := by
  induction q with
  | nil => exact ⟨[], rfl⟩
  | cons p q ih =>
    rw [List.map_cons, List.mem_cons, not_or] at h
    obtain ⟨t, rfl⟩ := ih h.2
    cases p with
    | text c => exact ⟨c :: t, rfl⟩
    | field key => exact absurd rfl h.1

theorem globOf_texts (t : Text) : globOf (t.map .text) = Glob.quote t := fill_texts _ _ t

theorem rendered_texts (name ext t : Text) : rendered name ext (t.map .text) = t := by
  rw [rendered, fill_texts, List.flatMap_singleton']

/-- The glob of plain characters goes to the name that they are. -/
theorem unquote_globOf {q : List Part} (h : .star ∉ q.map piece) (name ext : Text) :
    Glob.unquote (globOf q) = rendered name ext q := by
  obtain ⟨t, rfl⟩ := eq_map_text_of_star_not_mem h
  rw [globOf_texts, rendered_texts, Glob.unquote_quote]

theorem dropWhile_globOf_fields (fields : List Char) (rest : List Part) :
    (globOf (fields.map .field ++ rest)).dropWhile (· == '*') =
      (globOf rest).dropWhile (· == '*') := by
  induction fields with
  | nil => rfl
  | cons key fields ih => exact ih

/-- A glob begins with a star only where a field comes first. -/
theorem leading_field_of_star {q : List Part} (h : (globOf q).head? = some '*') :
    ∃ key, q.head? = some (.field key) := by
  cases q with
  | nil => cases h
  | cons p q =>
    cases p with
    | field key => exact ⟨key, rfl⟩
    | text c =>
      have hglob : globOf (.text c :: q) = Glob.quoteChar c ++ globOf q := rfl
      rw [hglob, Glob.quoteChar] at h
      split at h
      · cases h
      · rename_i hc
        exact absurd (Option.some.inj h ▸ by decide) hc

/-- Where no field comes first there are no stars to leave out. -/
theorem dropWhile_globOf {rest : List Part} (h : rest.head?.bind Part.key? = none) :
    (globOf rest).dropWhile (· == '*') = globOf rest := by
  cases hglob : globOf rest with
  | nil => rfl
  | cons c t =>
    have hstar : (c == '*') = false := by
      apply beq_false_of_ne
      rintro rfl
      have hhead : (globOf rest).head? = some '*' := by rw [hglob, List.head?_cons]
      obtain ⟨key, hkey⟩ := leading_field_of_star hhead
      rw [hkey] at h
      exact nomatch h
    rw [List.dropWhile_cons, hstar]
    rfl

/-- The fields at the start of some parts, and the rest. -/
theorem exists_leading_fields (q : List Part) :
    ∃ (fields : List Char) (rest : List Part), q = fields.map .field ++ rest ∧
      rest.head?.bind Part.key? = none := by
  induction q with
  | nil => exact ⟨[], [], rfl, rfl⟩
  | cons p q ih =>
    cases p with
    | text c => exact ⟨[], .text c :: q, rfl, rfl⟩
    | field key =>
      obtain ⟨fields, rest, rfl, hhead⟩ := ih
      exact ⟨key :: fields, rest, rfl, hhead⟩

/-- Whether the glob of a segment is tested by an ending in which a character is quoted: the segment
is fields and then plain characters, among them one that is quoted, but none of those that keep it
from being tested by its ending. -/
def Misquoted (q : List Part) : Prop :=
  ∃ (fields : List Char) (tail : Text), fields ≠ [] ∧ q = fields.map .field ++ tail.map .text ∧
    (∀ c ∈ tail, c ∉ Glob.unfit) ∧ ∃ c ∈ tail, c ∈ Glob.special

/-- A segment without characters that are quoted is not misquoted. -/
theorem not_misquoted_of_plain {q : List Part} (h : ∀ c, .text c ∈ q → c ∉ Glob.special) :
    ¬ Misquoted q := by
  rintro ⟨fields, tail, -, rfl, -, c, hc, hspecial⟩
  exact h c (List.mem_append_right _ (List.mem_map_of_mem hc)) hspecial

theorem backslash_mem_quote {t : Text} (h : ∃ c ∈ t, c ∈ Glob.special) : '\\' ∈ Glob.quote t := by
  obtain ⟨c, hc, hspecial⟩ := h
  refine List.mem_flatMap.mpr ⟨c, hc, ?_⟩
  rw [Glob.quoteChar, if_pos hspecial]
  exact List.mem_cons_self

/-- Quoting brings in nothing that keeps a part from being tested by its ending. -/
theorem not_mem_unfit_of_mem_quote {t : Text} (h : ∀ c ∈ t, c ∉ Glob.unfit) :
    ∀ c ∈ Glob.quote t, c ∉ Glob.unfit := by
  intro c hc
  obtain ⟨x, hx, hc⟩ := List.mem_flatMap.mp hc
  unfold Glob.quoteChar at hc
  split at hc
  · rcases List.mem_cons.mp hc with rfl | hc
    · decide
    · rw [List.mem_singleton.mp hc]
      exact h x hx
  · rw [List.mem_singleton.mp hc]
    exact h x hx

/-- The glob of a misquoted segment is an ending with a backslash in it. -/
theorem ofText_of_misquoted {q : List Part} (h : Misquoted q) :
    ∃ tail, Glob.Segment.ofText (globOf q) = .ending tail ∧ '\\' ∈ tail := by
  obtain ⟨fields, tail, hfields, rfl, hfit, hspecial⟩ := h
  obtain ⟨key, fields, rfl⟩ := List.exists_cons_of_ne_nil hfields
  have hbackslash := backslash_mem_quote hspecial
  have hglob : globOf ((key :: fields).map .field ++ tail.map .text) =
      globOf ((key :: fields).map .field) ++ Glob.quote tail := by
    rw [← globOf_texts]
    exact fill_append _ _ _ _
  have hdrop : (globOf ((key :: fields).map .field ++ tail.map .text)).dropWhile (· == '*') =
      Glob.quote tail := by
    rw [dropWhile_globOf_fields, dropWhile_globOf (by cases tail <;> rfl), globOf_texts]
  have hne : globOf ((key :: fields).map .field ++ tail.map .text) ≠ Glob.stars := by
    intro hstars
    have hmem := List.mem_append_right (globOf ((key :: fields).map .field)) hbackslash
    rw [← hglob, hstars] at hmem
    exact absurd hmem (by decide)
  refine ⟨Glob.quote tail, ?_, hbackslash⟩
  rw [Glob.ofText_of_ne_stars hne, hdrop, if_pos]
  refine ⟨rfl, List.all_eq_true.mpr fun c hc => ?_⟩
  simpa using not_mem_unfit_of_mem_quote hfit c hc

theorem mem_quote_of_mem {c : Char} {t : Text} (h : c ∈ t) : c ∈ Glob.quote t := by
  refine List.mem_flatMap.mpr ⟨c, h, ?_⟩
  unfold Glob.quoteChar
  split <;> simp

theorem quote_eq_self {t : Text} (h : ∀ c ∈ t, c ∉ Glob.special) : Glob.quote t = t := by
  have hspell : ∀ c ∈ t, Glob.quoteChar c = [c] := fun c hc => if_neg (h c hc)
  rw [Glob.quote, List.flatMap_congr hspell, List.flatMap_singleton']

/-- The ending of a part that is tested by it is not quoted, so the rendered name has it. -/
theorem suffix_rendered {q : List Part} (hq : ¬ Misquoted q) (name ext : Text)
    (hstar : (globOf q).head? = some '*')
    (htail : ∀ c ∈ (globOf q).dropWhile (· == '*'), c ∉ Glob.unfit) :
    (globOf q).dropWhile (· == '*') <:+ rendered name ext q := by
  obtain ⟨fields, rest, rfl, hhead⟩ := exists_leading_fields q
  rw [dropWhile_globOf_fields, dropWhile_globOf hhead] at htail ⊢
  have hplain : .star ∉ rest.map piece := fun h => htail '*' (star_mem_globOf h) (by decide)
  obtain ⟨tail, rfl⟩ := eq_map_text_of_star_not_mem hplain
  rw [globOf_texts] at htail ⊢
  have hfields : fields ≠ [] := by
    rintro rfl
    obtain ⟨key, hkey⟩ := leading_field_of_star hstar
    rw [List.map_nil, List.nil_append] at hkey
    rw [hkey] at hhead
    exact nomatch hhead
  have hspecial : ∀ c ∈ tail, c ∉ Glob.special := fun c hc hquoted =>
    hq ⟨fields, tail, hfields, rfl, fun c hc => htail c (mem_quote_of_mem hc), c, hc, hquoted⟩
  rw [quote_eq_self hspecial, rendered, fill_append]
  exact ⟨_, congrArg _ (rendered_texts name ext tail).symm⟩

/-- The glob of a segment takes what the segment is rendered into, if that does not begin with a dot
where the segment begins with a field. -/
theorem suits_rendered {q : List Part} (hq : ¬ Misquoted q) {name ext : Text}
    (hhidden : ∀ key, q.head? = some (.field key) → Glob.isHidden (rendered name ext q) = false) :
    Glob.Suits (globOf q) (rendered name ext q) := by
  have hstar (h : (globOf q).head? = some '*') : Glob.isHidden (rendered name ext q) = false := by
    obtain ⟨key, hkey⟩ := leading_field_of_star h
    exact hhidden key hkey
  by_cases hstars : globOf q = Glob.stars
  · exact Or.inl ⟨hstars, hstar (hstars ▸ rfl)⟩
  · apply Or.inr
    rw [Glob.ofText_of_ne_stars hstars]
    split
    · rename_i h
      have htail : ∀ c ∈ (globOf q).dropWhile (· == '*'), c ∉ Glob.unfit := fun c hc => by
        simpa using List.all_eq_true.mp h.2 c hc
      have hsuffix := suffix_rendered hq name ext h.1 htail
      rw [Glob.Segment.test, hstar h.1, List.isSuffixOf_iff_suffix.mpr hsuffix]
      rfl
    · rw [piecesOf_globOf]
      split
      · rw [Glob.Segment.test, matchPieces_piece, Bool.and_true]
        cases hhead : q.head? with
        | none => simp [hhead]
        | some p =>
          cases p with
          | text c => simp [hhead, piece]
          | field key => simp [hhidden key hhead]
      · rename_i hliteral
        have hplain : .star ∉ q.map piece := by simpa using hliteral
        rw [Glob.Segment.test, unquote_globOf hplain name ext, beq_self_eq_true]

/-- The glob of a segment that is rendered into a plain name is plain. -/
theorem plain_globOf {q : List Part} {name ext : Text} (h : Plain (rendered name ext q)) :
    Plain (globOf q) := by
  have hself {g : Text} (hg : globOf q = g) (hstar : '*' ∉ g) (hunquote : Glob.unquote g = g) :
      rendered name ext q = g := by
    have hplain : .star ∉ q.map piece := fun h => hstar (hg ▸ star_mem_globOf h)
    rw [← unquote_globOf hplain, hg, hunquote]
  refine ⟨fun hg => h.1 ?_, fun hg => h.2.1 ?_, fun hg => h.2.2 ?_⟩
  · exact hself hg (by decide) rfl
  · exact hself hg (by decide) rfl
  · exact hself hg (by decide) rfl

/-- A segment that is gone to by name goes to what it is rendered into. -/
theorem eq_rendered_of_literal {q : List Part} {m : Text}
    (h : Glob.Segment.ofText (globOf q) = .literal m) (name ext : Text) :
    m = rendered name ext q := by
  have hstars : globOf q ≠ Glob.stars := by
    intro hstars
    rw [hstars] at h
    exact nomatch h
  rw [Glob.ofText_of_ne_stars hstars] at h
  split at h
  · exact nomatch h
  · rw [piecesOf_globOf] at h
    split at h
    · exact nomatch h
    · rename_i hliteral
      have hplain : .star ∉ q.map piece := by simpa using hliteral
      rw [← unquote_globOf hplain]
      exact (Glob.Segment.literal.inj h).symm

/-- The segments of the glob of a format, neighbouring globstars made one. -/
def globSegments (f : Text) : List Glob.Segment :=
  (Glob.collapse (splitSlash (globOf (parts f)))).map .ofText

section

variable {f name ext : Text} (hname : '/' ∉ name) (hext : '/' ∉ ext)

include hname hext

/-- Where a path is rendered whose segments are plain names, the parts of the glob are plain. -/
theorem plain_globPart (hplain : ∀ n ∈ splitSlash (rendered name ext (parts f)), Plain n) :
    ∀ p ∈ splitSlash (globOf (parts f)), Plain p := by
  rw [splitSlash_rendered hname hext] at hplain
  rw [splitSlash_globOf]
  intro p hp
  obtain ⟨q, hq, rfl⟩ := List.mem_map.mp hp
  exact plain_globOf (hplain _ (List.mem_map_of_mem hq))

/-- Where a path is rendered whose segments are plain names, the glob goes by plain names only. -/
theorem plain_of_literal_mem (hplain : ∀ n ∈ splitSlash (rendered name ext (parts f)), Plain n) :
    ∀ m, .literal m ∈ globSegments f → Plain m := by
  intro m hm
  obtain ⟨p, hp, hliteral⟩ := List.mem_map.mp hm
  have hpart := Glob.mem_of_mem_collapse hp
  rw [splitSlash_globOf] at hpart
  obtain ⟨q, hq, rfl⟩ := List.mem_map.mp hpart
  rw [splitSlash_rendered hname hext] at hplain
  rw [eq_rendered_of_literal hliteral name ext]
  exact hplain _ (List.mem_map_of_mem hq)

/-- A rendered path fits the glob of its format if no segment is misquoted and none that begins with
a field is rendered into one that begins with a dot. -/
theorem fits_rendered (hquoted : ∀ q ∈ segments (parts f), ¬ Misquoted q)
    (hhidden : ∀ q ∈ segments (parts f), ∀ key, q.head? = some (.field key) →
      Glob.isHidden (rendered name ext q) = false) :
    Glob.Fits false (globSegments f) (splitSlash (rendered name ext (parts f))) := by
  apply Glob.fits_collapse (Path.splitSlash_ne_nil _)
  rw [splitSlash_globOf, splitSlash_rendered hname hext, List.forall₂_map_left_iff,
    List.forall₂_map_right_iff, List.forall₂_same]
  intro q hq
  exact suits_rendered (hquoted q hq) (hhidden q hq)

end

/-- Paths without a backslash do not fit the glob of a format with a misquoted segment. -/
theorem not_fits_of_misquoted {f : Text} {q : List Part} (hq : q ∈ segments (parts f))
    (h : Misquoted q) {ns : List Text} (hns : ∀ n ∈ ns, '\\' ∉ n) :
    ¬ Glob.Fits false (globSegments f) ns := by
  intro hfits
  obtain ⟨tail, hending, hbackslash⟩ := ofText_of_misquoted h
  have hmem : .ending tail ∈ globSegments f := by
    rw [← hending]
    refine List.mem_map_of_mem (Glob.mem_collapse_of_mem ?_)
    rw [splitSlash_globOf]
    exact List.mem_map_of_mem hq
  obtain ⟨n, hn, htest⟩ := hfits.exists_test hmem fun h => nomatch h
  rw [Glob.Segment.test, Bool.and_eq_true, List.isSuffixOf_iff_suffix] at htest
  exact hns n hn (htest.2.subset hbackslash)

end Format

end CaseFiles
