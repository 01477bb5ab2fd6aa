import CaseFiles.Proofs.Regex.Alike
import CaseFiles.Proofs.Regex.Reading
import CaseFiles.Proofs.Regex.Renaming

/-!
# Reading an expression within a group

An expression that is well formed on its own is so within a group. All that may change is what its
numbers refer to, since the group around it is numbered, too. Main statements: reading goes along
from any two states (`exists_along`), and what an expression in a group is read as between the
start and the end of the text (`ofLexemes_grouped`).
-/

namespace CaseFiles

namespace Regex

variable {names names' : List (Text × Nat)} {total total' : Nat}

/-- The state of reading after an opening. -/
def Reader.enter (r : Reader) (o : Opening) : Reader :=
  ⟨.new o (r.count + o.size), r.top :: r.outer, r.count + o.size, false⟩

/-- The state of reading after the group is closed that has been opened last. -/
def Reader.leave (r : Reader) (inner : Reader) : Reader :=
  ⟨r.top.add inner.top.close, r.outer, inner.count, inner.top.repeatable⟩

/-- A group is read by reading what is in it. -/
theorem foldlM_group {ys : List Lexeme} (hys : Balanced ys) (o : Opening) (zs : List Lexeme)
    (r : Reader) :
    (Lexeme.opening o :: (ys ++ .closing :: zs)).foldlM (Reader.step names total) r =
      (ys.foldlM (Reader.step names total) (r.enter o)).bind fun inner =>
        zs.foldlM (Reader.step names total) (r.leave inner) := by
  have hopen : Reader.step names total r (.opening o) = some (r.enter o) := by
    cases o <;> rfl
  rw [List.foldlM_cons, hopen]
  change (ys ++ .closing :: zs).foldlM (Reader.step names total) (r.enter o) = _
  rw [List.foldlM_append]
  cases hinner : ys.foldlM (Reader.step names total) (r.enter o) with
  | none => rfl
  | some inner =>
    change (Lexeme.closing :: zs).foldlM (Reader.step names total) inner =
      zs.foldlM (Reader.step names total) (r.leave inner)
    rw [List.foldlM_cons, Reader.step, (Reader.extends_of_balanced hys hinner).outer]
    rfl

theorem alike_foldl {op : Regex → Regex → Regex}
    (hop : ∀ {a b c d}, Alike a b → Alike c d → Alike (op a c) (op b d)) {ts us : List Regex}
    (h : List.Forall₂ Alike ts us) {a b : Regex} (hab : Alike a b) :
    Alike (ts.foldl (fun rest t => op t rest) a) (us.foldl (fun rest t => op t rest) b) := by
  induction h generalizing a b with
  | nil => exact hab
  | cons ht _ ih => exact ih (hop ht hab)

namespace Frame

/-- Two open groups have terms that are alike. -/
structure Alike (f g : Frame) : Prop where
  terms : List.Forall₂ Regex.Alike f.terms g.terms
  alternatives : List.Forall₂ Regex.Alike f.alternatives g.alternatives

variable {f g : Frame}

theorem Alike.add (h : f.Alike g) {s t : Regex} (hst : Regex.Alike s t) :
    (f.add s).Alike (g.add t) :=
  ⟨.cons hst h.terms, h.alternatives⟩

theorem Alike.row (h : f.Alike g) : Regex.Alike f.row g.row :=
  alike_foldl .seq h.terms .empty

theorem Alike.split (h : f.Alike g) : f.split.Alike g.split :=
  ⟨.nil, .cons h.row h.alternatives⟩

theorem Alike.body (h : f.Alike g) : Regex.Alike f.body g.body :=
  alike_foldl .alt h.alternatives h.row

theorem Alike.close (h : f.Alike g) (hopening : g.opening = f.opening) :
    Regex.Alike f.close g.close := by
  unfold Frame.close
  rw [hopening]
  split
  · exact h.body
  · exact .group _ _ h.body
  · exact .look _ _ h.body

theorem repeatable_congr (hopening : g.opening = f.opening) : g.repeatable = f.repeatable := by
  unfold repeatable
  rw [hopening]

end Frame

/-- Two states of reading go along: what may come next is the same, and if the expressions are meant
to be alike then their terms are. -/
structure Along (exact : Prop) (r s : Reader) : Prop where
  terms_nil : s.top.terms = [] ↔ r.top.terms = []
  canRepeat : s.canRepeat = r.canRepeat
  alike : exact → r.top.Alike s.top

section

variable {exact : Prop} {r s r' : Reader}

theorem along_enter (exact : Prop) (r s : Reader) (o : Opening) :
    Along exact (r.enter o) (s.enter o) :=
  ⟨Iff.rfl, rfl, fun _ => ⟨.nil, .nil⟩⟩

/-- A term is added on both sides. -/
theorem Along.add (h : Along exact r s) {t u : Regex} (htu : exact → Alike t u) :
    Along exact (r.add t) (s.add u) where
  terms_nil := iff_of_false (List.cons_ne_nil _ _) (List.cons_ne_nil _ _)
  canRepeat := rfl
  alike he := (h.alike he).add (htu he)

/-- A number is read as one term at least. -/
theorem numberTerms_ne_nil (total : Nat) (digits : List Char) : numberTerms total digits ≠ [] := by
  unfold numberTerms
  simp only
  split
  · exact List.cons_ne_nil _ _
  · rename_i hlarge
    cases digits with
    | nil => exact absurd (Nat.zero_le total) hlarge
    | cons d ds =>
      simp only [List.map_cons]
      split <;> exact List.cons_ne_nil _ _

theorem foldl_add_eq (ts : List Regex) (r : Reader) (hts : ts ≠ []) :
    ts.foldl Reader.add r = r.push ts.reverse true := by
  induction ts generalizing r with
  | nil => exact absurd rfl hts
  | cons t ts ih =>
    cases ts with
    | nil => rfl
    | cons u us =>
      rw [List.foldl_cons, ih (r.add t) (List.cons_ne_nil _ _)]
      simp [Reader.push, Reader.add, Frame.add]

/-- A lexeme that neither opens nor closes a group is read along. -/
theorem Along.step {x : Lexeme} (h : Along exact r s) (hflat : ∀ depth, nest depth x = some depth)
    (hnameless : x.nameless = true)
    (hnumber : exact → ∀ digits, x = .number digits →
      List.Forall₂ Alike (numberTerms total digits) (numberTerms total' digits))
    (hread : Reader.step names total r x = some r') :
    ∃ s', Reader.step names' total' s x = some s' ∧ Along exact r' s' := by
  cases x with
  | unit set =>
    rw [← Option.some.inj hread]
    exact ⟨_, rfl, h.add fun _ => .unit set⟩
  | edge e =>
    rw [← Option.some.inj hread]
    exact ⟨_, rfl, (h.add fun _ => .edge e).terms_nil, rfl, fun he => (h.alike he).add (.edge e)⟩
  | opening o => exact absurd (Option.some.inj (hflat 0)) (Nat.succ_ne_zero 0)
  | closing => cases hflat 0
  | bar =>
    rw [← Option.some.inj hread]
    exact ⟨_, rfl, Iff.rfl, rfl, fun he => (h.alike he).split⟩
  | quantifier q =>
    rw [Reader.step] at hread
    split at hread
    · rename_i t ts hr
      split at hread
      · rename_i hrepeat
        rw [← Option.some.inj hread, Reader.step]
        cases hs : s.top.terms with
        | nil => exact absurd (h.terms_nil.mp hs) (hr ▸ List.cons_ne_nil t ts)
        | cons u us =>
          refine ⟨_, if_pos (h.canRepeat.trans hrepeat),
            iff_of_false (List.cons_ne_nil _ _) (List.cons_ne_nil _ _), rfl,
            fun he => ⟨?_, (h.alike he).alternatives⟩⟩
          have hterms := (h.alike he).terms
          rw [hr, hs] at hterms
          cases hterms with
          | cons htu hmore => exact .cons (.rep q htu) hmore
      · cases hread
    · cases hread
  | number digits =>
    rw [← Option.some.inj hread]
    refine ⟨_, rfl, ?_⟩
    rw [foldl_add_eq _ _ (numberTerms_ne_nil total digits),
      foldl_add_eq _ _ (numberTerms_ne_nil total' digits)]
    refine ⟨?_, rfl, fun he => ⟨?_, (h.alike he).alternatives⟩⟩
    · refine iff_of_false ?_ ?_ <;>
        exact List.append_ne_nil_of_left_ne_nil
          (List.reverse_ne_nil_iff.mpr (numberTerms_ne_nil _ digits)) _
    · exact List.rel_append (List.forall₂_reverse_iff.mpr (hnumber he digits rfl))
        (h.alike he).terms
  | named name => cases hnameless

/-- Balanced lexemes without names are read along. -/
theorem exists_along {xs : List Lexeme} (hxs : Balanced xs) (hnameless : ∀ x ∈ xs, x.nameless = true)
    (hnumber : exact → ∀ digits, .number digits ∈ xs →
      List.Forall₂ Alike (numberTerms total digits) (numberTerms total' digits))
    (h : Along exact r s) (hread : xs.foldlM (Reader.step names total) r = some r') :
    ∃ s', xs.foldlM (Reader.step names' total') s = some s' ∧ Along exact r' s' := by
  induction hxs generalizing r s r' with
  | nil =>
    obtain rfl := Option.some.inj hread
    exact ⟨s, rfl, h⟩
  | @flat x xs hflat _ ih =>
    rw [List.foldlM_cons] at hread
    obtain ⟨m, hm, hread⟩ := Option.bind_eq_some_iff.mp hread
    obtain ⟨hx, hmore⟩ := List.forall_mem_cons.mp hnameless
    have hstep : ∃ n, Reader.step names' total' s x = some n ∧ Along exact m n :=
      h.step hflat hx (fun he digits hd => hnumber he digits (hd ▸ List.mem_cons_self)) hm
    obtain ⟨n, hn, hmn⟩ := hstep
    rw [List.foldlM_cons, hn]
    exact ih hmore (fun he digits hd => hnumber he digits (List.mem_cons_of_mem x hd)) hmn hread
  | @group o ys zs hys _ ihy ihz =>
    rw [foldlM_group hys] at hread ⊢
    obtain ⟨m, hm, hread⟩ := Option.bind_eq_some_iff.mp hread
    simp only [List.forall_mem_cons, List.forall_mem_append] at hnameless
    obtain ⟨-, hnamey, -, hnamez⟩ := hnameless
    have hmemy {x : Lexeme} (hx : x ∈ ys) : x ∈ Lexeme.opening o :: (ys ++ .closing :: zs) :=
      List.mem_cons_of_mem _ (List.mem_append_left _ hx)
    have hmemz {x : Lexeme} (hx : x ∈ zs) : x ∈ Lexeme.opening o :: (ys ++ .closing :: zs) :=
      List.mem_cons_of_mem _ (List.mem_append_right _ (List.mem_cons_of_mem _ hx))
    obtain ⟨n, hn, hmn⟩ := ihy hnamey (fun he digits hd => hnumber he digits (hmemy hd))
      (along_enter exact r s o) hm
    have hopening : n.top.opening = m.top.opening :=
      (Reader.extends_of_balanced hys hn).opening.trans
        (Reader.extends_of_balanced hys hm).opening.symm
    have hleave : Along exact (r.leave m) (s.leave n) :=
      ⟨iff_of_false (List.cons_ne_nil _ _) (List.cons_ne_nil _ _),
        Frame.repeatable_congr hopening,
        fun he => (h.alike he).add ((hmn.alike he).close hopening)⟩
    rw [hn]
    exact ihz hnamez (fun he digits hd => hnumber he digits (hmemz hd)) hleave hread

end

/-- The lexemes of a group between the start and the end of the text. -/
def grouped (o : Opening) (xs : List Lexeme) : List Lexeme :=
  .edge .start :: .opening o :: (xs ++ [.closing, .edge .finish])

/-- The state of reading after the start of the text. -/
def Reader.started : Reader :=
  { Reader.start with top := Reader.start.top.add (.edge .start), canRepeat := false }

/-- A term between the start and the end of the text. -/
def spanning (t : Regex) : Regex := .seq (.edge .start) (.seq t (.seq (.edge .finish) .empty))

theorem groupNames_nameless {xs : List Lexeme} (h : ∀ x ∈ xs, x.nameless = true) (n : Nat) :
    groupNames n xs = [] := by
  induction xs generalizing n with
  | nil => rfl
  | cons x xs ih =>
    obtain ⟨hx, hmore⟩ := List.forall_mem_cons.mp h
    cases x with
    | opening o =>
      cases o with
      | capture name =>
        cases name with
        | none => exact ih hmore (n + 1)
        | some name => cases hx
      | plain | look => exact ih hmore n
    | unit | edge | closing | bar | quantifier | number | named => exact ih hmore n

/-- The group is the only one that may have a name. -/
theorem groupNames_grouped {xs : List Lexeme} (h : ∀ x ∈ xs, x.nameless = true) (o : Opening) :
    groupNames 0 (grouped o xs) =
      match o with
      | .capture (some name) => [(name, 1)]
      | _ => [] := by
  have hinner (n : Nat) : groupNames n (xs ++ [.closing, .edge .finish]) = [] := by
    rw [groupNames_append, groupNames_nameless h]
    rfl
  cases o with
  | capture name =>
    cases name with
    | none => exact hinner 1
    | some name => exact congrArg ((name, 1) :: ·) (hinner 1)
  | plain | look => exact hinner 0

/-- The state of reading before the group is closed. -/
def readGrouped (o : Opening) (xs : List Lexeme) : Option Reader :=
  xs.foldlM (Reader.step (groupNames 0 (grouped o xs)) (groupCount (grouped o xs)))
    (Reader.started.enter o)

/-- What is read in a group is the only term between the start and the end of the text. -/
theorem ofLexemes_grouped {xs : List Lexeme} (hxs : Balanced xs)
    (hnameless : ∀ x ∈ xs, x.nameless = true) (o : Opening) :
    ofLexemes (grouped o xs) = (readGrouped o xs).map fun inner =>
      ⟨spanning inner.top.close, groupNames 0 (grouped o xs)⟩ := by
  have hnodup : ((groupNames 0 (grouped o xs)).map Prod.fst).Nodup := by
    rw [groupNames_grouped hnameless]
    split
    · exact List.nodup_singleton _
    · exact List.nodup_nil
  have hread (names : List (Text × Nat)) (total : Nat) :
      (grouped o xs).foldlM (Reader.step names total) Reader.start =
        (xs.foldlM (Reader.step names total) (Reader.started.enter o)).bind fun inner =>
          [Lexeme.edge .finish].foldlM (Reader.step names total) (Reader.started.leave inner) := by
    rw [grouped, List.foldlM_cons]
    exact foldlM_group hxs o [_] Reader.started
  unfold ofLexemes
  simp only
  rw [if_pos hnodup, hread, ← readGrouped]
  cases readGrouped o xs <;> rfl

/-- A group that keeps what it takes is the same without its name. -/
theorem ofLexemes_unnamed {xs : List Lexeme} (hnameless : ∀ x ∈ xs, x.nameless = true)
    (name : Text) :
    ofLexemes (grouped (.capture none) xs) =
      (ofLexemes (grouped (.capture (some name)) xs)).map fun parsed => ⟨parsed.regex, []⟩ := by
  have hmap : (grouped (.capture (some name)) xs).map (Lexeme.rename fun _ => none) =
      grouped (.capture none) xs := by
    rw [grouped, List.map_cons, List.map_cons, List.map_append, map_rename_of_nameless hnameless]
    rfl
  have hnone : groupNames 0 (grouped (.capture none) xs) = [] := groupNames_grouped hnameless _
  rw [← hmap, ofLexemes_rename, hmap, hnone]
  · rw [hmap, hnone, groupNames_grouped hnameless]
    exact iff_of_true List.nodup_nil (List.nodup_singleton _)
  · intro n hn
    have hmem : .named n ∈ xs := by
      simpa [grouped] using hn
    cases hnameless _ hmem

/-- A number that is too large to refer to a group is read as units. -/
theorem numberTerms_alike {digits : List Char} (h : total < natOf digits)
    (h' : total' < natOf digits) :
    List.Forall₂ Alike (numberTerms total digits) (numberTerms total' digits) := by
  have hsame : numberTerms total digits = numberTerms total' digits := by
    unfold numberTerms
    rw [if_neg (Nat.not_le.mpr h), if_neg (Nat.not_le.mpr h')]
  have hliteral (us : List CodeUnit) : ∀ t ∈ us.map fun u => Regex.unit (.single u), Alike t t := by
    intro t ht
    obtain ⟨u, -, rfl⟩ := List.mem_map.mp ht
    exact .unit _
  rw [← hsame, List.forall₂_same]
  intro t ht
  unfold numberTerms at ht
  simp only [if_neg (Nat.not_le.mpr h)] at ht
  split at ht
  · cases ht
  · split at ht
    · exact hliteral _ t ht
    · exact hliteral _ t ht

/-- No number refers to a group, nor would it if there were one more. -/
def Unnumbered (xs : List Lexeme) : Prop :=
  ∀ digits, .number digits ∈ xs → groupCount xs + 1 < natOf digits

/-- What is well formed on its own is so in a group, whether the group keeps what it takes or not,
and unless numbers come to refer to other groups the two match alike. -/
theorem exists_grouped {xs : List Lexeme} {parsed : Parsed} (h : ofLexemes xs = some parsed)
    (hnameless : ∀ x ∈ xs, x.nameless = true) (name : Option Text) :
    ∃ a b, ofLexemes (grouped .plain xs) = some ⟨spanning a, []⟩ ∧
      ofLexemes (grouped (.capture name) xs) =
        some ⟨spanning b, groupNames 0 (grouped (.capture name) xs)⟩ ∧
      (Unnumbered xs → Alike a b) := by
  obtain ⟨-, r, hr, houter, -⟩ := exists_of_ofLexemes h
  have hnest := Reader.nestAll_of_foldlM hr
  rw [houter] at hnest
  have hxs := balanced_of_nestAll hnest
  have hcount (o : Opening) : groupCount (grouped o xs) = o.size + groupCount xs := by
    rw [grouped, groupCount_cons, groupCount_cons (.opening o), groupCount_opening,
      groupCount_append]
    change 0 + (o.size + (groupCount xs + 0)) = _
    rw [Nat.zero_add, Nat.add_zero]
  have halone : Along False Reader.start (Reader.started.enter .plain) :=
    ⟨Iff.rfl, rfl, False.elim⟩
  have hplain : ∃ m, readGrouped .plain xs = some m ∧ Along False r m :=
    exists_along hxs hnameless False.elim halone hr
  obtain ⟨m, hm, -⟩ := hplain
  have henter : Along (Unnumbered xs) (Reader.started.enter .plain)
      (Reader.started.enter (.capture name)) := ⟨Iff.rfl, rfl, fun _ => ⟨.nil, .nil⟩⟩
  have hcapture : ∃ n, readGrouped (.capture name) xs = some n ∧ Along (Unnumbered xs) m n := by
    refine exists_along hxs hnameless (fun hlarge digits hd => ?_) henter hm
    have hdigits := hlarge digits hd
    refine numberTerms_alike ?_ ?_ <;> simp only [hcount, Opening.size] <;> omega
  obtain ⟨n, hn, hmn⟩ := hcapture
  refine ⟨m.top.close, n.top.close, ?_, ?_, fun hlarge => ?_⟩
  · rw [ofLexemes_grouped hxs hnameless, hm, groupNames_grouped hnameless]
    rfl
  · rw [ofLexemes_grouped hxs hnameless, hn]
    rfl
  · rw [Frame.close, Frame.close, (Reader.extends_of_balanced hxs hm).opening,
      (Reader.extends_of_balanced hxs hn).opening]
    exact .extra _ (hmn.alike hlarge).body

end Regex

end CaseFiles
