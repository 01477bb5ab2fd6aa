import CaseFiles.Proofs.Regex.Reading
import CaseFiles.Regex.Matcher

/-!
# What the matcher finds

A way of walking through a text covers a language if it hands on exactly the places past the words
of the language: what succeeds has gone past some word (soundness), and a word after which the
continuation succeeds is not missed (completeness). Which of several words is taken first does not
matter here. Main statement: the expression of a fragment covers its language (`covers_fragment`).
-/

namespace CaseFiles

namespace Regex

open Computability

namespace Place

/-- The place past some units that stand after this one. -/
def past (w : List CodeUnit) (p : Place) : Place :=
  { p with before := w.reverse ++ p.before, after := p.after.drop w.length }

@[simp] theorem past_kept (w : List CodeUnit) (p : Place) : (p.past w).kept = p.kept := rfl

@[simp] theorem past_after (w : List CodeUnit) (p : Place) :
    (p.past w).after = p.after.drop w.length := rfl

@[simp] theorem past_nil (p : Place) : p.past [] = p := rfl

theorem past_append (a b : List CodeUnit) (p : Place) : p.past (a ++ b) = (p.past a).past b := by
  simp [past, List.drop_drop]

/-- Nothing is forgotten where there are no groups. -/
@[simp] theorem forget_nil (p : Place) : p.forget [] = p := by
  simp [forget]

@[simp] theorem left_ahead (p : Place) : p.left true = p.after.length := rfl

/-- A word that stands after a place splits into two where its parts stand one after the other. -/
theorem append_isPrefix_after {a b : List CodeUnit} {p : Place} :
    a ++ b <+: p.after ↔ a <+: p.after ∧ b <+: (p.past a).after := by
  constructor
  · intro h
    obtain ⟨rest, hrest⟩ := h
    rw [past_after, ← hrest, List.append_assoc, List.drop_left]
    exact ⟨List.prefix_append _ _, List.prefix_append _ _⟩
  · rintro ⟨⟨x, hx⟩, hb⟩
    rw [past_after, ← hx, List.drop_left] at hb
    rw [← hx]
    exact (List.prefix_append_right_inj a).mpr hb

/-- The units between a place and the place past a word are that word. -/
theorem between_past {w : List CodeUnit} {p : Place} (h : w <+: p.after) :
    p.between true (p.past w) = w := by
  obtain ⟨rest, hrest⟩ := h
  simp [between, ← hrest]

/-- Past a word that is not empty fewer units are left. -/
theorem left_past_lt {w : List CodeUnit} {p : Place} (h : w <+: p.after) :
    (p.past w).left true < p.left true ↔ w ≠ [] := by
  have hle := h.length_le
  rw [left_ahead, left_ahead, past_after, List.length_drop, ← List.length_pos_iff]
  omega

end Place

theorem orElse_eq_some {a b : Option Place} {q : Place} (h : (a <|> b) = some q) :
    a = some q ∨ b = some q := by
  cases a with
  | none => exact Or.inr h
  | some r => exact Or.inl h

private theorem isSome_orElse {a b : Option Place} (h : a.isSome = true ∨ b.isSome = true) :
    (a <|> b).isSome = true := by
  cases a with
  | none => exact h.resolve_left (by simp)
  | some r => rfl

/-- A way of walking covers a language. -/
structure Covers (walk : Place → Next → Option Place) (L : Language CodeUnit) : Prop where
  sound {p : Place} {next : Next} {q : Place} :
    walk p next = some q → ∃ w ∈ L, w <+: p.after ∧ next (p.past w) = some q
  complete {p : Place} {next : Next} {w : List CodeUnit} :
    w ∈ L → w <+: p.after → (next (p.past w)).isSome = true → (walk p next).isSome = true

section

variable {walk walk' : Place → Next → Option Place} {L M : Language CodeUnit}

/-- Going on at once covers the empty word. -/
theorem covers_one : Covers (fun p next => next p) 1 := by
  constructor
  · intro p next q h
    exact ⟨[], rfl, List.nil_prefix, h⟩
  · intro p next w hw _ hn
    rw [Language.mem_one] at hw
    rw [hw] at hn
    exact hn

/-- Taking a unit covers the words of one unit of its set. -/
theorem covers_unit {s : Charset} {S : Set CodeUnit} (hs : ∀ u, s.has u = true ↔ u ∈ S) :
    Covers (fun p next => (p.take true s).bind next) {w | ∃ u ∈ S, w = [u]} := by
  constructor
  · rintro ⟨before, after, kept⟩ next q h
    cases after with
    | nil => exact nomatch h
    | cons u us =>
      by_cases hu : s.has u = true
      · simp only [Place.take, if_true, hu, Option.bind_some] at h
        exact ⟨[u], ⟨u, (hs u).mp hu, rfl⟩, List.prefix_append [u] us, h⟩
      · simp [Place.take, hu] at h
  · rintro ⟨before, after, kept⟩ next w ⟨u, hu, rfl⟩ ⟨us, rfl⟩ hn
    have htake : Place.take true s ⟨before, [u] ++ us, kept⟩ = some ⟨u :: before, us, kept⟩ := by
      simp [Place.take, (hs u).mpr hu]
    rw [htake]
    exact hn

/-- One after the other covers the product. -/
theorem covers_mul (hL : Covers walk L) (hM : Covers walk' M) :
    Covers (fun p next => walk p fun q => walk' q next) (L * M) := by
  constructor
  · intro p next q h
    obtain ⟨a, ha, hpa, hn⟩ := hL.sound h
    obtain ⟨b, hb, hpb, hq⟩ := hM.sound hn
    refine ⟨a ++ b, Language.append_mem_mul ha hb, Place.append_isPrefix_after.mpr ⟨hpa, hpb⟩, ?_⟩
    rw [Place.past_append]
    exact hq
  · intro p next w hw hp hn
    obtain ⟨a, ha, b, hb, rfl⟩ := Language.mem_mul.mp hw
    obtain ⟨hpa, hpb⟩ := Place.append_isPrefix_after.mp hp
    rw [Place.past_append] at hn
    exact hL.complete ha hpa (hM.complete hb hpb hn)

/-- One or else the other covers the union. -/
theorem covers_add (hL : Covers walk L) (hM : Covers walk' M) :
    Covers (fun p next => walk p next <|> walk' p next) (L + M) := by
  constructor
  · intro p next q h
    rcases orElse_eq_some h with ha | hb
    · obtain ⟨w, hw, hp, hq⟩ := hL.sound ha
      exact ⟨w, Or.inl hw, hp, hq⟩
    · obtain ⟨w, hw, hp, hq⟩ := hM.sound hb
      exact ⟨w, Or.inr hw, hp, hq⟩
  · intro p next w hw hp hn
    apply isSome_orElse
    rcases hw with hw | hw
    · exact Or.inl (hL.complete hw hp hn)
    · exact Or.inr (hM.complete hw hp hn)

/-- What a repetition finds, it finds at once or after a round that takes something. -/
theorem optional_sound (hL : Covers walk L) {most : Option Nat} (hm : most ≠ some 0) {p : Place}
    {next : Next} {q : Place}
    (h : optional walk [] true true (p.left true) most p next = some q) :
    next p = some q ∨ ∃ w ∈ L, w ≠ [] ∧ w <+: p.after ∧
      optional walk [] true true ((p.past w).left true) (most.map (· - 1)) (p.past w) next =
        some q := by
  rw [optional_eq (Nat.le_refl _) hm, Place.forget_nil] at h
  rcases orElse_eq_some h with hround | hnext
  · obtain ⟨w, hw, hp, hn⟩ := hL.sound hround
    by_cases hlt : (p.past w).left true < p.left true
    · rw [if_pos hlt] at hn
      exact Or.inr ⟨w, hw, (Place.left_past_lt hp).mp hlt, hp, hn⟩
    · rw [if_neg hlt] at hn
      exact nomatch hn
  · exact Or.inl hnext

/-- A repetition misses neither going on at once nor a round that takes something. -/
theorem optional_complete (hL : Covers walk L) {most : Option Nat} (hm : most ≠ some 0) {p : Place}
    {next : Next}
    (h : (next p).isSome = true ∨ ∃ w ∈ L, w ≠ [] ∧ w <+: p.after ∧
      (optional walk [] true true ((p.past w).left true) (most.map (· - 1)) (p.past w) next).isSome =
        true) :
    (optional walk [] true true (p.left true) most p next).isSome = true := by
  rw [optional_eq (Nat.le_refl _) hm, Place.forget_nil]
  apply isSome_orElse
  rcases h with hnext | ⟨w, hw, hne, hp, hn⟩
  · exact Or.inr hnext
  · refine Or.inl (hL.complete hw hp ?_)
    rw [if_pos ((Place.left_past_lt hp).mpr hne)]
    exact hn

/-- At most one round covers the words of one round and the empty word. -/
theorem covers_opt (hL : Covers walk L) :
    Covers (fun p next => optional walk [] true true (p.left true) (some 1) p next) (1 + L) := by
  have hlast (p : Place) (next : Next) (fuel : Nat) :
      optional walk [] true true fuel ((some 1).map (· - 1)) p next = next p := by
    cases fuel <;> rfl
  constructor
  · intro p next q h
    rcases optional_sound hL (by decide) h with hn | ⟨w, hw, -, hp, hn⟩
    · exact ⟨[], Or.inl rfl, List.nil_prefix, hn⟩
    · rw [hlast] at hn
      exact ⟨w, Or.inr hw, hp, hn⟩
  · intro p next w hw hp hn
    apply optional_complete hL (by decide)
    by_cases hne : w = []
    · subst hne
      exact Or.inl hn
    · exact Or.inr ⟨w, hw.resolve_left hne, hne, hp, by rwa [hlast]⟩

/-- Any number of rounds covers the rows of words. There are only so many, as each of them leaves
fewer units. -/
theorem covers_star (hL : Covers walk L) :
    Covers (fun p next => optional walk [] true true (p.left true) none p next) (L∗) := by
  constructor
  · intro p
    induction hn : p.left true using Nat.strong_induction_on generalizing p with
    | _ n ih =>
      intro next q h
      subst hn
      rcases optional_sound hL (by simp) h with hn | ⟨w, hw, hne, hp, hn⟩
      · exact ⟨[], Language.nil_mem_kstar L, List.nil_prefix, hn⟩
      · obtain ⟨v, hv, hpv, hq⟩ := ih _ ((Place.left_past_lt hp).mpr hne) rfl hn
        refine ⟨w ++ v, ?_, Place.append_isPrefix_after.mpr ⟨hp, hpv⟩, ?_⟩
        · rw [← Language.one_add_self_mul_kstar_eq_kstar]
          exact Or.inr (Language.append_mem_mul hw hv)
        · rw [Place.past_append]
          exact hq
  · intro p next w hw hp hn
    obtain ⟨rounds, rfl, hrounds⟩ := Language.mem_kstar_iff_exists_nonempty.mp hw
    clear hw
    induction rounds generalizing p with
    | nil => exact optional_complete hL (by simp) (Or.inl hn)
    | cons a rounds ih =>
      obtain ⟨ha, hne⟩ := hrounds a List.mem_cons_self
      rw [List.flatten_cons] at hp hn
      obtain ⟨hpa, hprest⟩ := Place.append_isPrefix_after.mp hp
      rw [Place.past_append] at hn
      exact optional_complete hL (by simp) (Or.inr ⟨a, ha, hne, hpa,
        ih (fun b hb => hrounds b (List.mem_cons_of_mem a hb)) hprest hn⟩)

end

/-- The set that a shorthand is read as has its members. -/
theorem has_charset (s : Shorthand) (u : CodeUnit) : s.charset.has u = true ↔ u ∈ s.members := by
  cases s <;>
    simp only [Shorthand.charset, Shorthand.members, Charset.notLineEnd, Charset.lineEnd,
      Charset.digit, Charset.word, Charset.blank, Charset.unions, Charset.has, Charset.chars,
      Charset.single, unitOf, List.foldr_cons, List.foldr_nil, Bool.not_eq_true', Bool.or_eq_true,
      Bool.or_eq_false_iff, Bool.and_eq_true, Bool.and_eq_false_iff, decide_eq_true_eq,
      decide_eq_false_iff_not, Bool.false_eq_true, or_false, and_true, Set.mem_ofPred_eq, ne_eq,
      UInt16.le_iff_toNat_le, ← UInt16.toNat_inj, UInt16.toNat_ofNat, UInt16.reduceOfNat, Char.reduceToNat] <;>
    omega

/-- A repetition of an atom covers the language of the repetition. -/
theorem covers_rep {body : Regex} {L : Language CodeUnit} (hgroups : body.groups = [])
    (h : Covers (body.run true) L) (r : Repeat) :
    Covers ((rep r.quantifier body).run true) (r.language L) := by
  cases r with
  | star =>
    have hrun : (rep Repeat.star.quantifier body).run true =
        fun p next => optional (body.run true) [] true true (p.left true) none p next := by
      rw [← hgroups]
      rfl
    rw [hrun]
    exact covers_star h
  | plus =>
    have hrun : (rep Repeat.plus.quantifier body).run true = fun p next => body.run true p fun q =>
        optional (body.run true) [] true true (q.left true) none q next := by
      funext p next
      rw [← hgroups]
      conv_rhs => rw [← Place.forget_nil p, ← hgroups]
      rfl
    rw [hrun]
    exact covers_mul h (covers_star h)
  | opt =>
    have hrun : (rep Repeat.opt.quantifier body).run true =
        fun p next => optional (body.run true) [] true true (p.left true) (some 1) p next := by
      rw [← hgroups]
      rfl
    rw [hrun]
    exact covers_opt h

/-- The expression of a fragment covers its language. -/
theorem covers_fragment {k : Rank} (x : Fragment k) : Covers (x.regex.run true) x.language := by
  induction x with
  | set s => exact covers_unit (has_charset s)
  | char c basic =>
    have hunit := covers_unit (s := .single (unitOf c)) (S := {unitOf c}) fun u => by
      rw [Charset.has_single, beq_iff_eq, Set.mem_singleton_iff, eq_comm]
    have hword : {w | ∃ u ∈ ({unitOf c} : Set CodeUnit), w = [u]} =
        (Fragment.char c basic).language := by
      rw [Fragment.language, charUnits_of_basic basic]
      simp only [Set.mem_singleton_iff, exists_eq_left]
      rfl
    exact hword ▸ hunit
  | group body ih => exact ih
  | once a ih => exact ih
  | repeated a r ih => exact covers_rep a.groups_regex ih r
  | empty => exact covers_one
  | cons t rest iht ihr =>
    have h := covers_mul iht ihr
    exact h
  | only r ih => exact ih
  | or r rest ihr ihm =>
    have h := covers_add ihr ihm
    exact h

end Regex

end CaseFiles
