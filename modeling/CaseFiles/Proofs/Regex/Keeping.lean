import CaseFiles.Association
import CaseFiles.Proofs.Regex.Matching

/-!
# What a match leaves alone

Whatever an expression is made of, a match that walks ahead hands on places further on in the text,
and it changes nothing that groups outside of the expression have kept. Main statement:
`walks_run`.
-/

namespace CaseFiles

namespace Regex

namespace Place

/-- What one group keeps does not disturb what another one has kept. -/
theorem lookup_keep (p : Place) (i j : Nat) (w : List CodeUnit) :
    (p.keep i w).kept.lookup j = if j = i then some w else p.kept.lookup j := by
  rw [keep, List.lookup_cons]
  by_cases hij : j = i
  · rw [if_pos hij, hij, beq_self_eq_true]
  · rw [if_neg hij, beq_eq_false_iff_ne.mpr hij]
    exact lookup_filter (P := fun k => k ≠ i) (by simp [hij]) p.kept

theorem lookup_forget {groups : List Nat} {i : Nat} (hi : i ∉ groups) (p : Place) :
    (p.forget groups).kept.lookup i = p.kept.lookup i :=
  lookup_filter (P := fun k => k ∉ groups) (by simp [hi]) p.kept

/-- A place that is reached from another one by a match with these groups. -/
structure Reaches (ahead : Bool) (groups : List Nat) (p q : Place) : Prop where
  after : ahead = true → q.after <:+ p.after
  kept : ∀ i ∉ groups, q.kept.lookup i = p.kept.lookup i

variable {ahead : Bool} {groups : List Nat} {p q r : Place}

theorem Reaches.refl (ahead : Bool) (groups : List Nat) (p : Place) : p.Reaches ahead groups p :=
  ⟨fun _ => List.suffix_refl _, fun _ _ => rfl⟩

theorem Reaches.trans (h : Reaches ahead groups p q) (h' : Reaches ahead groups q r) :
    Reaches ahead groups p r :=
  ⟨fun ha => (h'.after ha).trans (h.after ha),
    fun i hi => (h'.kept i hi).trans (h.kept i hi)⟩

/-- A part of an expression has no more groups. -/
theorem Reaches.mono {more : List Nat} (h : Reaches ahead groups p q) (hsub : groups ⊆ more) :
    Reaches ahead more p q :=
  ⟨h.after, fun i hi => h.kept i fun hmem => hi (hsub hmem)⟩

/-- What the groups of the expression keep does not matter. -/
theorem Reaches.forget (h : Reaches ahead groups (p.forget groups) q) :
    Reaches ahead groups p q :=
  ⟨h.after, fun i hi => (h.kept i hi).trans (lookup_forget hi p)⟩

end Place

open Place (Reaches)

/-- A way of walking goes on from a place that it reaches. -/
structure Walks (ahead : Bool) (groups : List Nat) (walk : Place → Next → Option Place) :
    Prop where
  onward {p : Place} {next : Next} {z : Place} :
    walk p next = some z → ∃ q, Reaches ahead groups p q ∧ next q = some z

section

variable {ahead : Bool} {groups : List Nat} {walk walk' : Place → Next → Option Place}

theorem Walks.mono {more : List Nat} (h : Walks ahead groups walk) (hsub : groups ⊆ more) :
    Walks ahead more walk where
  onward hz := by
    obtain ⟨q, hq, hz⟩ := h.onward hz
    exact ⟨q, hq.mono hsub, hz⟩

/-- Going on at once. -/
theorem walks_stay (ahead : Bool) (groups : List Nat) :
    Walks ahead groups fun p next => next p where
  onward {p _ _} hz := ⟨p, Reaches.refl ahead groups p, hz⟩

/-- One after the other. -/
theorem Walks.seq (h : Walks ahead groups walk) (h' : Walks ahead groups walk') :
    Walks ahead groups fun p next => walk p fun q => walk' q next where
  onward hz := by
    obtain ⟨q, hq, hz⟩ := h.onward hz
    obtain ⟨r, hr, hz⟩ := h'.onward hz
    exact ⟨r, hq.trans hr, hz⟩

/-- One or else the other. -/
theorem Walks.orElse (h : Walks ahead groups walk) (h' : Walks ahead groups walk') :
    Walks ahead groups fun p next => walk p next <|> walk' p next where
  onward hz := by
    rcases orElse_eq_some hz with hz | hz
    · exact h.onward hz
    · exact h'.onward hz

/-- One round of a repetition forgets what the groups in it have kept. -/
theorem Walks.forget (h : Walks ahead groups walk) :
    Walks ahead groups fun p next => walk (p.forget groups) next where
  onward hz := by
    obtain ⟨q, hq, hz⟩ := h.onward hz
    exact ⟨q, hq.forget, hz⟩

theorem walks_times (h : Walks ahead groups walk) (n : Nat) :
    Walks ahead groups (times walk groups n) := by
  induction n with
  | zero => exact walks_stay ahead groups
  | succ n ih => exact h.forget.seq ih

/-- A round, after which it depends on where it began how to go on, or none. -/
theorem Walks.round (h : Walks ahead groups walk) {further : Place → Place → Next → Option Place}
    (hfurther : ∀ p, Walks ahead groups (further p)) (greedy : Bool) :
    Walks ahead groups fun p next =>
      prefer greedy (walk (p.forget groups) fun q => further p q next) (next p) where
  onward {p next z} hz := by
    have hcases : (walk (p.forget groups) fun q => further p q next) = some z ∨
        next p = some z := by
      cases greedy with
      | true => exact orElse_eq_some hz
      | false => exact (orElse_eq_some hz).symm
    rcases hcases with hround | hz
    · obtain ⟨q, hq, hz⟩ := h.forget.onward hround
      obtain ⟨r, hr, hz⟩ := (hfurther p).onward hz
      exact ⟨r, hq.trans hr, hz⟩
    · exact ⟨p, Reaches.refl ahead groups p, hz⟩

theorem walks_optional (h : Walks ahead groups walk) (greedy : Bool) (fuel : Nat)
    (most : Option Nat) : Walks ahead groups (optional walk groups ahead greedy fuel most) := by
  induction fuel generalizing most with
  | zero =>
    have hnone (_ : Place) : Walks ahead groups fun _ _ => none := by
      constructor
      intro p next z hz
      exact absurd hz (Option.some_ne_none z).symm
    have hround := h.round hnone greedy
    cases most with
    | none => exact hround
    | some m =>
      cases m with
      | zero => exact walks_stay ahead groups
      | succ m => exact hround
  | succ fuel ih =>
    have hfurther (most : Option Nat) (p : Place) : Walks ahead groups fun q next =>
        if q.left ahead < p.left ahead then optional walk groups ahead greedy fuel most q next
        else none := by
      constructor
      intro q next z hz
      split at hz
      · exact (ih most).onward hz
      · exact nomatch hz
    cases most with
    | none => exact h.round (hfurther _) greedy
    | some m =>
      cases m with
      | zero => exact walks_stay ahead groups
      | succ m => exact h.round (hfurther _) greedy

end

/-- Taking a unit goes on further in the text. -/
theorem reaches_take {ahead : Bool} {set : Charset} {p q : Place} (h : p.take ahead set = some q) :
    Reaches ahead [] p q := by
  obtain ⟨before, after, kept⟩ := p
  cases ahead with
  | true =>
    cases after with
    | nil => cases h
    | cons u us =>
      simp only [Place.take, if_true] at h
      split at h
      · rw [← Option.some.inj h]
        exact ⟨fun _ => List.suffix_cons u us, fun _ _ => rfl⟩
      · cases h
  | false =>
    cases before with
    | nil => cases h
    | cons u us =>
      simp only [Place.take, Bool.false_eq_true, if_false] at h
      split at h
      · rw [← Option.some.inj h]
        exact ⟨fun ha => absurd ha Bool.false_ne_true, fun _ _ => rfl⟩
      · cases h

theorem reaches_takeAll {ahead : Bool} {w : List CodeUnit} {p q : Place}
    (h : p.takeAll ahead w = some q) : Reaches ahead [] p q := by
  unfold Place.takeAll at h
  split at h
  · split at h
    · rw [← Option.some.inj h]
      exact ⟨fun _ => List.drop_suffix _ _, fun _ _ => rfl⟩
    · exact nomatch h
  · rename_i ha
    split at h
    · rw [← Option.some.inj h]
      exact ⟨fun hahead => absurd hahead ha, fun _ _ => rfl⟩
    · exact nomatch h

/-- A match goes on from places that it reaches. -/
theorem walks_run (r : Regex) (ahead : Bool) : Walks ahead r.groups (r.run ahead) := by
  induction r generalizing ahead with
  | empty => exact walks_stay ahead []
  | unit set =>
    constructor
    intro p next z hz
    obtain ⟨q, hq, hz⟩ := Option.bind_eq_some_iff.mp hz
    exact ⟨q, reaches_take hq, hz⟩
  | seq a b iha ihb =>
    have ha := (iha ahead).mono (List.subset_append_left a.groups b.groups)
    have hb := (ihb ahead).mono (List.subset_append_right a.groups b.groups)
    cases ahead with
    | true => exact ha.seq hb
    | false => exact hb.seq ha
  | alt a b iha ihb =>
    exact ((iha ahead).mono (List.subset_append_left a.groups b.groups)).orElse
      ((ihb ahead).mono (List.subset_append_right a.groups b.groups))
  | group i body ih =>
    constructor
    intro p next z hz
    obtain ⟨q, hq, hz⟩ := (ih ahead).onward hz
    refine ⟨q.keep i (p.between ahead q), ⟨hq.after, fun j hj => ?_⟩, hz⟩
    rw [Place.lookup_keep, if_neg (List.ne_of_not_mem_cons hj)]
    exact hq.kept j (List.not_mem_of_not_mem_cons hj)
  | back i =>
    constructor
    intro p next z hz
    unfold run at hz
    split at hz
    · obtain ⟨q, hq, hz⟩ := Option.bind_eq_some_iff.mp hz
      exact ⟨q, reaches_takeAll hq, hz⟩
    · exact ⟨p, Reaches.refl ahead [] p, hz⟩
  | edge e =>
    constructor
    intro p next z hz
    unfold run at hz
    split at hz
    · exact ⟨p, Reaches.refl ahead [] p, hz⟩
    · exact nomatch hz
  | look forward negated body ih =>
    constructor
    intro p next z hz
    unfold run at hz
    split at hz
    · rename_i q hlook
      obtain ⟨r, hr, hrq⟩ := (ih forward).onward hlook
      obtain rfl := Option.some.inj hrq
      exact ⟨⟨p.before, p.after, r.kept⟩, ⟨fun _ => List.suffix_refl _, hr.kept⟩, hz⟩
    · exact nomatch hz
    · exact nomatch hz
    · exact ⟨p, Reaches.refl ahead _ p, hz⟩
  | rep q body ih =>
    constructor
    intro p next z hz
    obtain ⟨m, hm, hz⟩ := (walks_times (ih ahead) q.min).onward hz
    obtain ⟨r, hr, hz⟩ := (walks_optional (ih ahead) q.greedy _ _).onward hz
    exact ⟨r, hm.trans hr, hz⟩

end Regex

end CaseFiles
