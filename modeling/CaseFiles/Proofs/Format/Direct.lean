import CaseFiles.Proofs.Format.Globbing
import CaseFiles.Proofs.Format.Scanning

/-!
# Formats that go straight

The segments of a format as it is written are those that it is read as. A segment that is empty, `.`
or `..` has no field in it, so it is in every path that the format is rendered into; any other
segment is rendered into a name, if the name of the test case begins with neither a dot nor a slash.
Main statements: `direct_of_plain_rendered` and `plain_rendered_of_direct`.
-/

namespace CaseFiles

open CaseFiles.Path (Plain splitSlash joinSlash)

namespace Path

/-- Joined texts have the segments of each of them. -/
theorem splitSlash_joinSlash_flatMap {texts : List Text} (hne : texts ≠ []) :
    splitSlash (joinSlash texts) = texts.flatMap splitSlash := by
  induction texts with
  | nil => exact absurd rfl hne
  | cons t rest ih =>
    cases rest with
    | nil => simp [joinSlash]
    | cons u rest =>
      rw [joinSlash, splitSlash_append, ih (List.cons_ne_nil u rest), List.flatMap_cons,
        List.flatMap_cons, List.flatMap_cons]

/-- What does not go anywhere by a name is made of dots. -/
theorem eq_dot_of_not_plain {s : Text} (h : ¬ Plain s) {c : Char} (hc : c ∈ s) : c = '.' := by
  by_contra hdot
  refine h ⟨?_, ?_, ?_⟩
  · rintro rfl
    exact absurd hc List.not_mem_nil
  · rintro rfl
    exact hdot (List.mem_singleton.mp hc)
  · rintro rfl
    rcases List.mem_cons.mp hc with hc | hc
    · exact hdot hc
    · exact hdot (List.mem_singleton.mp hc)

end Path

namespace Format

theorem rendered_text (name ext : Text) (c : Char) (q : List Part) :
    rendered name ext (.text c :: q) = c :: rendered name ext q := rfl

/-- The segments of a format that locates test cases are written as they are read. -/
theorem splitSlash_format {f : Text} (hf : validate f = .ok ()) :
    splitSlash f = (segments (parts f)).map written := by
  obtain ⟨hend, hfields, -, -⟩ := validate_eq_ok_iff.mp hf
  have hsplit : splitSlash (written (parts f)) = (segments (parts f)).map written := by
    refine splitSlash_fill rfl (fun c hc => ?_) fun key hkey => ?_
    · unfold writeChar
      split <;> simp [hc.symm]
    · rcases hfields key hkey with rfl | rfl <;> decide
  rwa [written_parts hend] at hsplit

/-- What is written without a percent sign is rendered as it is written. -/
theorem rendered_eq_written {q : List Part} (h : '%' ∉ written q) (name ext : Text) :
    rendered name ext q = written q := by
  induction q with
  | nil => rfl
  | cons p q ih =>
    cases p with
    | field key => exact absurd List.mem_cons_self h
    | text c =>
      rw [written_text, List.mem_append, not_or] at h
      have hc : c ≠ '%' := by
        rintro rfl
        exact h.1 List.mem_cons_self
      rw [rendered_text, ih h.2, written_text, writeChar_of_ne hc, List.singleton_append]

/-- What is rendered into dots only is written with these dots, unless a field stands for dots. -/
theorem written_eq_rendered {q : List Part} {name ext : Text} (hname : ∃ c ∈ name, c ≠ '.')
    (hext : ∃ c ∈ ext, c ≠ '.') (h : ∀ c ∈ rendered name ext q, c = '.') :
    written q = rendered name ext q := by
  induction q with
  | nil => rfl
  | cons p q ih =>
    have hq := ih fun c hc => h c (List.mem_append_right _ hc)
    cases p with
    | text c =>
      have hc : c = '.' := h c List.mem_cons_self
      rw [written_text, hq, rendered_text, hc]
      rfl
    | field key =>
      have hvalue : ∃ c ∈ caseValue name ext key, c ≠ '.' := by
        unfold caseValue
        split
        · exact hname
        · exact hext
      obtain ⟨c, hc, hne⟩ := hvalue
      exact absurd (h c (List.mem_append_left _ hc)) hne

/-- A rendered path has the segments that those of the format are rendered into, even if the name of
the test case has a slash in it. -/
theorem splitSlash_rendered_flatMap (name ext : Text) (ps : List Part) :
    splitSlash (rendered name ext ps) =
      (segments ps).flatMap fun q => splitSlash (rendered name ext q) := by
  have hjoin : rendered name ext ps = joinSlash ((segments ps).map (rendered name ext)) := by
    induction ps with
    | nil => rfl
    | cons p ps ih =>
      obtain ⟨q, qs, hqs⟩ := List.exists_cons_of_ne_nil (segments_ne_nil ps)
      rw [hqs, List.map_cons] at ih
      rw [segments, hqs]
      split
      next hp =>
        rw [hp, List.map_cons, List.map_cons, joinSlash, ← ih]
        rfl
      next =>
        have hcons : rendered name ext (p :: q) = rendered name ext [p] ++ rendered name ext q :=
          fill_append _ _ [p] q
        have happend : rendered name ext (p :: ps) = rendered name ext [p] ++ rendered name ext ps :=
          fill_append _ _ [p] ps
        rw [happend, ih, List.map_cons, hcons]
        cases qs with
        | nil => rfl
        | cons u qs => simp [joinSlash]
  rw [hjoin, Path.splitSlash_joinSlash_flatMap (by simpa using segments_ne_nil ps),
    List.flatMap_map]

/-- The segments of the glob of a format that are single names have no slash in them. There are no
fields in these, so they are the same in whatever the format is rendered into. -/
theorem slash_not_mem_of_literal_mem {f m : Text} (h : .literal m ∈ globSegments f) : '/' ∉ m := by
  obtain ⟨p, hp, hliteral⟩ := List.mem_map.mp h
  have hpart := Glob.mem_of_mem_collapse hp
  rw [splitSlash_globOf] at hpart
  obtain ⟨q, hq, rfl⟩ := List.mem_map.mp hpart
  rw [eq_rendered_of_literal hliteral ['a'] ['a']]
  have hsegment : rendered ['a'] ['a'] q ∈ splitSlash (rendered ['a'] ['a'] (parts f)) := by
    rw [splitSlash_rendered (by decide) (by decide)]
    exact List.mem_map_of_mem hq
  exact Path.slash_not_mem_of_mem_splitSlash hsegment

/-- A name of dots that the glob of a format goes by is a segment of the format. -/
theorem mem_splitSlash_of_literal {f m : Text} (hf : validate f = .ok ()) {q : List Part}
    (hq : q ∈ segments (parts f)) (h : Glob.Segment.ofText (globOf q) = .literal m)
    (hdots : ∀ c ∈ m, c = '.') : m ∈ splitSlash f := by
  have hvalue : ∃ c ∈ ['a'], c ≠ '.' := ⟨'a', by decide, by decide⟩
  have hm := eq_rendered_of_literal h ['a'] ['a']
  rw [hm] at hdots
  rw [hm, ← written_eq_rendered hvalue hvalue hdots, splitSlash_format hf]
  exact List.mem_map_of_mem hq

/-- The glob of a format starts at the root only if the format does. -/
theorem head?_globOf_ne_slash {f : Text} (hf : validate f = .ok ()) (h : f.head? ≠ some '/') :
    (globOf (parts f)).head? ≠ some '/' := by
  have hwritten := written_parts (validate_eq_ok_iff.mp hf).1
  cases hparts : parts f with
  | nil => exact fun hhead => nomatch hhead
  | cons p ps =>
    cases p with
    | field key =>
      intro hhead
      have hstar : '*' = '/' := Option.some.inj hhead
      exact absurd hstar (by decide)
    | text c =>
      have hc : c ≠ '/' := by
        rintro rfl
        rw [hparts] at hwritten
        exact h (hwritten ▸ rfl)
      intro hhead
      rw [globOf, fill_text] at hhead
      unfold Glob.quoteChar at hhead
      split at hhead
      · have hbackslash : '\\' = '/' := Option.some.inj hhead
        exact absurd hbackslash (by decide)
      · exact hc (Option.some.inj hhead)

/-- A format goes straight if none of its segments is empty, stays where it is or leads up. -/
def Direct (f : Text) : Prop := ∀ s ∈ splitSlash f, Plain s

section

variable {f name ext : Text} (hf : validate f = .ok ())

include hf

/-- Only a format that goes straight is rendered into a path of names. -/
theorem direct_of_plain_rendered
    (h : ∀ n ∈ splitSlash (rendered name ext (parts f)), Plain n) : Direct f := by
  intro s hs
  rw [splitSlash_format hf] at hs
  obtain ⟨q, hq, rfl⟩ := List.mem_map.mp hs
  by_contra hplain
  have hdots {c : Char} (hc : c ∈ written q) : c = '.' := Path.eq_dot_of_not_plain hplain hc
  have hpercent : '%' ∉ written q := fun hc => absurd (hdots hc) (by decide)
  have hslash : '/' ∉ written q := fun hc => absurd (hdots hc) (by decide)
  refine hplain (h (written q) ?_)
  rw [splitSlash_rendered_flatMap, List.mem_flatMap]
  refine ⟨q, hq, ?_⟩
  rw [rendered_eq_written hpercent, Path.splitSlash_of_not_mem hslash]
  exact List.mem_singleton_self _

/-- A format that goes straight is rendered into a path of names, if neither value has a slash in it
or is made of dots. -/
theorem plain_rendered_of_direct (h : Direct f) (hname : ∃ c ∈ name, c ≠ '.')
    (hext : ∃ c ∈ ext, c ≠ '.') (hnameSlash : '/' ∉ name) (hextSlash : '/' ∉ ext) :
    ∀ n ∈ splitSlash (rendered name ext (parts f)), Plain n := by
  intro n hn
  rw [splitSlash_rendered hnameSlash hextSlash] at hn
  obtain ⟨q, hq, rfl⟩ := List.mem_map.mp hn
  by_contra hplain
  have hwritten := written_eq_rendered hname hext fun c hc => Path.eq_dot_of_not_plain hplain hc
  refine hplain (hwritten ▸ h (written q) ?_)
  rw [splitSlash_format hf]
  exact List.mem_map_of_mem hq

/-- The glob of a format that goes straight goes by names only, whatever the fields stand for. -/
theorem plain_glob_of_direct (h : Direct f) :
    (∀ p ∈ splitSlash (globOf (parts f)), Plain p) ∧
      ∀ m, .literal m ∈ globSegments f → Plain m := by
  have hvalue : ∃ c ∈ ['a'], c ≠ '.' := ⟨'a', by decide, by decide⟩
  have hrendered := plain_rendered_of_direct hf h hvalue hvalue (by decide) (by decide)
  exact ⟨plain_globPart (by decide) (by decide) hrendered,
    plain_of_literal_mem (by decide) (by decide) hrendered⟩

end

end Format

end CaseFiles
