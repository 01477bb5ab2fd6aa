import CaseFiles.Proofs.Glob.NormalForm

/-!
# Where the segments of globs come from

Putting a written glob into normal form brings in no parts but the empty one, and a dot if something
leads up. If nothing leads up, there is one normal form only. Main statements:
`exists_part_of_mem_patterns`, `exists_patterns_of_not_mem`.
-/

namespace CaseFiles

namespace Glob

open CaseFiles.Path (splitSlash)

theorem mem_of_mem_cut {g s : Text} (h : s ∈ cut g) : s ∈ splitSlash g := by
  unfold cut at h
  split at h
  · cases h
  · rename_i heq
    rwa [heq]
  · rename_i heq
    rw [heq]
    simp only [List.mem_cons, List.mem_append, List.mem_filter, Option.mem_toList] at h
    rcases h with rfl | ⟨h, -⟩ | h
    · exact List.mem_cons_self
    · exact List.mem_cons_of_mem _ (List.dropLast_subset _ h)
    · exact List.mem_cons_of_mem _ (List.mem_of_getLast? h)

/-- A globstar that is taken out leaves the other parts, whichever way it went. -/
theorem mem_of_mem_fork (parts : List Text) :
    (∀ s ∈ (fork parts).1, s ∈ parts) ∧ ∀ q ∈ (fork parts).2, ∀ s ∈ q, s ∈ parts := by
  induction parts with
  | nil => simp [fork]
  | cons s rest ih =>
    obtain ⟨hkept, hothers⟩ := ih
    have hkept' : ∀ u ∈ s :: (fork rest).1, u ∈ s :: rest :=
      fun u hu => List.mem_cons.mpr ((List.mem_cons.mp hu).imp_right (hkept u))
    have hothers' : ∀ q ∈ (fork rest).2.map (s :: ·), ∀ u ∈ q, u ∈ s :: rest := by
      intro q hq u hu
      obtain ⟨other, hother, rfl⟩ := List.mem_map.mp hq
      exact List.mem_cons.mpr ((List.mem_cons.mp hu).imp_right (hothers other hother u))
    unfold fork
    dsimp only
    split
    next u p q more =>
      split
      next hfork =>
        refine ⟨fun v hv => List.mem_cons_of_mem s (hkept v hv), fun r hr v hv => ?_⟩
        rcases List.mem_append.mp hr with hr | hr
        · exact List.mem_cons_of_mem s (hothers r hr v hv)
        · rw [List.mem_singleton.mp hr, ← hfork.1] at hv
          rcases List.mem_cons.mp hv with rfl | hv
          · exact List.mem_cons_self
          · exact List.mem_cons_of_mem s (List.mem_cons_of_mem u hv)
      next => exact ⟨hkept', hothers'⟩
    next => exact ⟨hkept', hothers'⟩

theorem mem_of_mem_squeeze {parts : List Text} {s : Text} (h : s ∈ squeeze parts) : s ∈ parts := by
  cases parts with
  | nil => cases h
  | cons p ps =>
    have hinner : ∀ u ∈ p :: (ps.dropLast.filter fun s => s != Path.dot && !s.isEmpty) ++
        ps.getLast?.toList, u ∈ p :: ps := by
      intro u hu
      simp only [List.cons_append, List.mem_cons, List.mem_append, List.mem_filter,
        Option.mem_toList] at hu
      rcases hu with rfl | ⟨hu, -⟩ | hu
      · exact List.mem_cons_self
      · exact List.mem_cons_of_mem p (List.dropLast_subset ps hu)
      · exact List.mem_cons_of_mem p (List.mem_of_getLast? hu)
    unfold squeeze at h
    dsimp only at h
    split at h
    next first last heq =>
      rw [heq] at hinner
      split at h
      · exact hinner s (List.mem_singleton.mp h ▸ List.mem_cons_self)
      · exact hinner s (heq ▸ h)
    next => exact hinner s h

/-- Cancelling brings in a dot only. -/
theorem mem_of_mem_cancel {stack parts : List Text} {s : Text} (h : s ∈ cancel stack parts) :
    s ∈ stack ∨ s ∈ parts ∨ (s = Path.dot ∧ Path.dotDot ∈ parts) := by
  fun_induction cancel stack parts with
  | case1 stack => exact Or.inl (List.mem_reverse.mp h)
  | case2 u rest ih =>
    rcases ih h with hs | hs | ⟨rfl, hup⟩
    · exact Or.inr (Or.inl (List.mem_singleton.mp hs ▸ List.mem_cons_self))
    · exact Or.inr (Or.inl (List.mem_cons_of_mem u hs))
    · exact Or.inr (Or.inr ⟨rfl, List.mem_cons_of_mem u hup⟩)
  | case3 top below u rest hup hstars ih =>
    have hmem : Path.dotDot ∈ u :: rest := hup.1 ▸ List.mem_cons_self
    rcases ih h with hs | hs | ⟨rfl, -⟩
    · exact Or.inr (Or.inr ⟨List.mem_singleton.mp hs, hmem⟩)
    · exact Or.inr (Or.inl (List.mem_cons_of_mem u hs))
    · exact Or.inr (Or.inr ⟨rfl, hmem⟩)
  | case4 top below u rest hup hstars ih =>
    rcases ih h with hs | hs | ⟨rfl, hmem⟩
    · exact Or.inl (List.mem_cons_of_mem top hs)
    · exact Or.inr (Or.inl (List.mem_cons_of_mem u hs))
    · exact Or.inr (Or.inr ⟨rfl, List.mem_cons_of_mem u hmem⟩)
  | case5 top below u rest hup ih =>
    rcases ih h with hs | hs | ⟨rfl, hmem⟩
    · rcases List.mem_cons.mp hs with rfl | hs
      · exact Or.inr (Or.inl List.mem_cons_self)
      · exact Or.inl hs
    · exact Or.inr (Or.inl (List.mem_cons_of_mem u hs))
    · exact Or.inr (Or.inr ⟨rfl, List.mem_cons_of_mem u hmem⟩)

section

variable {P : Text → Prop} (hempty : P []) (hdot : P Path.dotDot → P Path.dot)

include hempty hdot

/-- What holds of the parts of a glob holds of those of its simplified forms. -/
theorem forall_mem_simplify {fuel : Nat} {parts : List Text} (h : ∀ s ∈ parts, P s) :
    ∀ q ∈ simplify fuel parts, ∀ s ∈ q, P s := by
  induction fuel generalizing parts with
  | zero =>
    intro q hq
    rw [List.mem_singleton.mp hq]
    exact h
  | succ n ih =>
    obtain ⟨hkept, hothers⟩ := mem_of_mem_fork (collapse parts)
    have hdone : ∀ s ∈ cancel [] (squeeze (fork (collapse parts)).1), P s := by
      intro s hs
      have hfrom {u : Text} (hu : u ∈ squeeze (fork (collapse parts)).1) : P u :=
        h u (mem_of_mem_collapse (hkept u (mem_of_mem_squeeze hu)))
      rcases mem_of_mem_cancel hs with hs | hs | ⟨rfl, hup⟩
      · cases hs
      · exact hfrom hs
      · exact hdot (hfrom hup)
    intro q hq
    rw [simplify] at hq
    dsimp only at hq
    rcases List.mem_append.mp hq with hq | hq
    · have hform : ∀ s ∈ (if (cancel [] (squeeze (fork (collapse parts)).1)).isEmpty then [[]]
          else cancel [] (squeeze (fork (collapse parts)).1)), P s := by
        split
        · exact List.forall_mem_singleton.mpr hempty
        · exact hdone
      generalize (if (cancel [] (squeeze (fork (collapse parts)).1)).isEmpty then [[]]
        else cancel [] (squeeze (fork (collapse parts)).1)) = done at hq hform
      split at hq
      · rw [List.mem_singleton.mp hq]
        exact hform
      · exact ih hform q hq
    · obtain ⟨r, hr, hq⟩ := List.mem_flatMap.mp hq
      exact ih (fun s hs => h s (mem_of_mem_collapse (hothers r hr s hs))) q hq

end

/-- Two globs are joined into parts of both: whichever comes first, the rest is joined from what is
left. -/
theorem mem_of_mem_joinParts {fuel : Nat} {w : Wider} {a b c : List Text}
    (h : joinParts fuel w a b = some c) {s : Text} (hs : s ∈ c) : s ∈ a ∨ s ∈ b := by
  induction fuel generalizing w a b c with
  | zero =>
    rw [← Option.some.inj h] at hs
    cases hs
  | succ n ih =>
    cases a with
    | nil =>
      rw [← Option.some.inj h] at hs
      cases hs
    | cons p as =>
      cases b with
      | nil =>
        rw [← Option.some.inj h] at hs
        cases hs
      | cons q bs =>
        have hjoin {v : Wider} {u : Text} {as' bs' : List Text} (hu : u ∈ p :: as ∨ u ∈ q :: bs)
            (has : as' ⊆ p :: as) (hbs : bs' ⊆ q :: bs)
            (hc : (joinParts n v as' bs').map (u :: ·) = some c) : s ∈ p :: as ∨ s ∈ q :: bs := by
          obtain ⟨c', hc', rfl⟩ := Option.map_eq_some_iff.mp hc
          rcases List.mem_cons.mp hs with rfl | hs
          · exact hu
          · exact (ih hc' hs).imp (@has s) (@hbs s)
        have hp : p ∈ p :: as ∨ p ∈ q :: bs := Or.inl List.mem_cons_self
        have hq : q ∈ p :: as ∨ q ∈ q :: bs := Or.inr List.mem_cons_self
        have htails (u : Text) (us : List Text) : us ⊆ u :: us := List.subset_cons_self u us
        have hself (us : List Text) : us ⊆ us := List.Subset.refl us
        rw [joinParts] at h
        split at h
        · exact hjoin hp (htails p as) (htails q bs) h
        split at h
        · exact hjoin hp (htails p as) (hself _) h
        split at h
        · exact hjoin hq (hself _) (htails q bs) h
        split at h
        · split at h
          · cases h
          · exact hjoin hp (htails p as) (htails q bs) h
        split at h
        · split at h
          · cases h
          · exact hjoin hq (htails p as) (htails q bs) h
        · cases h

/-- Of several globs one is joined with another one, and the others stay. -/
theorem mem_of_mem_joinInto {a : List Text} {gs joined : List (List Text)}
    (h : joinInto a gs = some joined) {q : List Text} (hq : q ∈ joined) {s : Text} (hs : s ∈ q) :
    ∃ p ∈ a :: gs, s ∈ p := by
  induction gs generalizing joined with
  | nil => cases h
  | cons b bs ih =>
    rw [joinInto] at h
    cases hjoin : join? a b with
    | some c =>
      rw [hjoin] at h
      rw [← Option.some.inj h] at hq
      rcases List.mem_cons.mp hq with rfl | hq
      · unfold join? at hjoin
        split at hjoin
        · rcases mem_of_mem_joinParts hjoin hs with hs | hs
          · exact ⟨a, List.mem_cons_self, hs⟩
          · exact ⟨b, List.mem_cons_of_mem a List.mem_cons_self, hs⟩
        · cases hjoin
      · exact ⟨q, List.mem_cons_of_mem a (List.mem_cons_of_mem b hq), hs⟩
    | none =>
      rw [hjoin] at h
      obtain ⟨joined, hjoined, rfl⟩ := Option.map_eq_some_iff.mp h
      rcases List.mem_cons.mp hq with rfl | hq
      · exact ⟨q, List.mem_cons_of_mem a List.mem_cons_self, hs⟩
      · obtain ⟨p, hp, hs⟩ := ih hjoined hq
        rcases List.mem_cons.mp hp with rfl | hp
        · exact ⟨p, List.mem_cons_self, hs⟩
        · exact ⟨p, List.mem_cons_of_mem a (List.mem_cons_of_mem b hp), hs⟩

theorem mem_of_mem_joinAll {fuel : Nat} {gs : List (List Text)} {q : List Text}
    (hq : q ∈ joinAll fuel gs) {s : Text} (hs : s ∈ q) : ∃ p ∈ gs, s ∈ p := by
  induction fuel generalizing gs with
  | zero => exact ⟨q, hq, hs⟩
  | succ n ih =>
    cases gs with
    | nil => exact ⟨q, hq, hs⟩
    | cons a rest =>
      rw [joinAll] at hq
      cases hjoin : joinInto a rest with
      | some joined =>
        rw [hjoin] at hq
        obtain ⟨p, hp, hs⟩ := ih hq
        exact mem_of_mem_joinInto hjoin hp hs
      | none =>
        rw [hjoin] at hq
        rcases List.mem_cons.mp hq with rfl | hq
        · exact ⟨q, List.mem_cons_self, hs⟩
        · obtain ⟨p, hp, hs⟩ := ih hq
          exact ⟨p, List.mem_cons_of_mem a hp, hs⟩

theorem exists_part_of_mem_ofParts {parts : List Text} {s : Segment}
    (h : s ∈ (Pattern.ofParts parts).segments) : ∃ part ∈ parts, s = .ofText part := by
  unfold Pattern.ofParts at h
  split at h
  · obtain ⟨part, hpart, rfl⟩ := List.mem_map.mp h
    exact ⟨part, List.mem_cons_of_mem _ (List.mem_cons_of_mem _ hpart), rfl⟩
  · cases h
  · obtain ⟨part, hpart, rfl⟩ := List.mem_map.mp h
    exact ⟨part, List.mem_cons_of_mem _ hpart, rfl⟩
  · obtain ⟨part, hpart, rfl⟩ := List.mem_map.mp h
    exact ⟨part, hpart, rfl⟩

/-- What holds of the parts of a written glob holds of those that its segments are read from. -/
theorem exists_part_of_mem_patterns {P : Text → Prop} (hempty : P [])
    (hdot : P Path.dotDot → P Path.dot) {g : Text} (hg : ∀ s ∈ splitSlash g, P s) {p : Pattern}
    (hp : p ∈ patterns g) {s : Segment} (hs : s ∈ p.segments) : ∃ part, P part ∧ s = .ofText part := by
  unfold patterns at hp
  split at hp
  · cases hp
  · obtain ⟨parts, hparts, rfl⟩ := List.mem_map.mp hp
    obtain ⟨part, hpart, rfl⟩ := exists_part_of_mem_ofParts hs
    obtain ⟨q, hq, hpart⟩ := mem_of_mem_joinAll hparts hpart
    exact ⟨part, forall_mem_simplify hempty hdot (fun u hu => hg u (mem_of_mem_cut hu)) q hq part hpart,
      rfl⟩

theorem mem_of_mem_unquote {s : Text} {c : Char} (h : c ∈ unquote s) : c ∈ s := by
  fun_induction unquote s with
  | case1 => cases h
  | case2 => exact h
  | case3 d rest ih =>
    rcases List.mem_cons.mp h with rfl | h
    · exact List.mem_cons_of_mem _ List.mem_cons_self
    · exact List.mem_cons_of_mem _ (List.mem_cons_of_mem d (ih h))
  | case4 d rest _ _ ih =>
    rcases List.mem_cons.mp h with rfl | h
    · exact List.mem_cons_self
    · exact List.mem_cons_of_mem d (ih h)

theorem eq_unquote_of_literal {s m : Text} (h : Segment.ofText s = .literal m) : m = unquote s := by
  unfold Segment.ofText at h
  dsimp only at h
  split at h
  · cases h
  split at h
  · cases h
  split at h
  · cases h
  · exact (Segment.literal.inj h).symm

/-- No segment has a slash in it. -/
theorem slash_not_mem_of_mem_patterns {g m : Text} {p : Pattern} (hp : p ∈ patterns g)
    (hm : .literal m ∈ p.segments) : '/' ∉ m := by
  obtain ⟨part, hpart, heq⟩ := exists_part_of_mem_patterns (P := fun s => '/' ∉ s) (by simp)
    (fun _ => by decide) (fun s hs => Path.slash_not_mem_of_mem_splitSlash hs) hp hm
  rw [eq_unquote_of_literal heq.symm]
  exact fun hslash => hpart (mem_of_mem_unquote hslash)

theorem head?_squeeze (parts : List Text) : (squeeze parts).head? = parts.head? := by
  cases parts with
  | nil => rfl
  | cons p ps =>
    unfold squeeze
    dsimp only
    split
    next first last heq =>
      have hfirst : p = first := (List.cons.inj heq).1
      split
      · rw [hfirst]
        rfl
      · rfl
    next => rfl

/-- A glob that does not lead up has one simplified form, which begins as the glob does. -/
theorem exists_simplify_of_not_mem {fuel : Nat} {parts : List Text} (hne : parts ≠ [])
    (h : Path.dotDot ∉ parts) : ∃ q, simplify fuel parts = [q] ∧ q.head? = parts.head? := by
  induction fuel generalizing parts with
  | zero => exact ⟨parts, rfl, rfl⟩
  | succ n ih =>
    have hcollapse : Path.dotDot ∉ collapse parts := fun hup => h (mem_of_mem_collapse hup)
    have hsqueeze : Path.dotDot ∉ squeeze (collapse parts) :=
      fun hup => hcollapse (mem_of_mem_squeeze hup)
    have hhead : (squeeze (collapse parts)).head? = parts.head? := by
      obtain ⟨s, rest, rfl⟩ := List.exists_cons_of_ne_nil hne
      obtain ⟨more, hmore⟩ := collapse_cons s rest
      rw [head?_squeeze, hmore]
      rfl
    have hdone : squeeze (collapse parts) ≠ [] := by
      intro hnil
      rw [hnil] at hhead
      exact hne (List.head?_eq_none_iff.mp hhead.symm)
    rw [simplify, fork_of_not_mem hcollapse]
    simp only [cancel_of_not_mem hsqueeze, List.reverse_nil, List.nil_append, List.isEmpty_iff,
      hdone, if_false, List.flatMap_nil, List.append_nil]
    split
    · exact ⟨_, rfl, hhead⟩
    · obtain ⟨q, hq, hqhead⟩ := ih hdone hsqueeze
      exact ⟨q, hq, hqhead.trans hhead⟩

theorem head?_cut (g : Text) : (cut g).head? = (splitSlash g).head? := by
  unfold cut
  cases splitSlash g with
  | nil => rfl
  | cons p ps => cases ps <;> rfl

/-- A glob that does not lead up has one normal form, and starts at the root only if it is written
so. -/
theorem exists_patterns_of_not_mem {g : Text} (hne : g ≠ []) (h : Path.dotDot ∉ splitSlash g) :
    ∃ p, patterns g = [p] ∧ (g.head? ≠ some '/' → p.absolute = false) := by
  have hcut : cut g ≠ [] := by
    intro hnil
    have hhead := head?_cut g
    rw [hnil] at hhead
    exact Path.splitSlash_ne_nil g (List.head?_eq_none_iff.mp hhead.symm)
  obtain ⟨q, hq, hhead⟩ := @exists_simplify_of_not_mem (2 * (cut g).length + 1) _ hcut fun hup =>
    h (mem_of_mem_cut hup)
  refine ⟨.ofParts q, ?_, fun hslash => ?_⟩
  · unfold patterns
    rw [if_neg (by simpa using hne)]
    simp only [hq]
    rfl
  · rw [head?_cut] at hhead
    cases g with
    | nil => exact absurd rfl hne
    | cons c rest =>
      have hc : c ≠ '/' := fun hc => hslash (congrArg some hc)
      obtain ⟨p, ps, hsplit⟩ := List.exists_cons_of_ne_nil (Path.splitSlash_ne_nil rest)
      rw [splitSlash, if_neg hc, hsplit] at hhead
      obtain ⟨more, rfl⟩ := List.head?_eq_some_iff.mp hhead
      rfl

end Glob

end CaseFiles
