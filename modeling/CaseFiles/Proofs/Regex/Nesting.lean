import CaseFiles.Proofs.Regex.Brackets

/-!
# Reading balanced lexemes

Balanced lexemes are read within the group that is open: the groups around it stay as they are, and
every group that is added has a number of its own, above all numbers given before. Main statements:
lexemes that leave the depth as it was are balanced (`balanced_of_nestAll`), so are those of any
expression (`nestAll_of_foldlM`), and what balanced lexemes do to the state of reading
(`extends_of_balanced`).
-/

namespace CaseFiles

namespace Regex

/-- Lexemes that close each group that they open, and no other one. -/
inductive Balanced : List Lexeme → Prop
  | nil : Balanced []
  | flat {x : Lexeme} {xs : List Lexeme} :
      (∀ depth, nest depth x = some depth) → Balanced xs → Balanced (x :: xs)
  | group {o : Opening} {ys zs : List Lexeme} :
      Balanced ys → Balanced zs → Balanced (.opening o :: (ys ++ .closing :: zs))

/-- Lexemes are balanced up to where each of the open groups is closed. The induction is
on their number, since what follows there need not begin right after the first of them. -/
theorem split_nestAll (xs : List Lexeme) :
    (nestAll 0 xs = some 0 → Balanced xs) ∧ ∀ depth, nestAll (depth + 1) xs = some 0 →
      ∃ ys zs, xs = ys ++ .closing :: zs ∧ Balanced ys ∧ nestAll depth zs = some 0 := by
  induction hn : xs.length using Nat.strong_induction_on generalizing xs with
  | _ n ih =>
    subst hn
    have hflat {x : Lexeme} {more : List Lexeme} (hxs : xs = x :: more)
        (hx : ∀ depth, nest depth x = some depth) :
        (nestAll 0 xs = some 0 → Balanced xs) ∧ ∀ depth, nestAll (depth + 1) xs = some 0 →
          ∃ ys zs, xs = ys ++ .closing :: zs ∧ Balanced ys ∧ nestAll depth zs = some 0 := by
      obtain ⟨hzero, hsucc⟩ := ih more.length (by rw [hxs]; exact Nat.lt_succ_self _) more rfl
      subst hxs
      refine ⟨fun h => .flat hx (hzero ?_), fun depth h => ?_⟩
      · rwa [nestAll_cons, hx] at h
      · rw [nestAll_cons, hx] at h
        obtain ⟨ys, zs, rfl, hys, hzs⟩ := hsucc depth h
        exact ⟨x :: ys, zs, rfl, .flat hx hys, hzs⟩
    cases xs with
    | nil => exact ⟨fun _ => .nil, fun _ h => nomatch h⟩
    | cons x more =>
      cases x with
      | opening o =>
        obtain ⟨-, hmore⟩ := ih more.length (Nat.lt_succ_self _) more rfl
        refine ⟨fun h => ?_, fun depth h => ?_⟩
        · obtain ⟨ys, zs, rfl, hys, hzs⟩ := hmore 0 h
          refine .group hys ((ih zs.length ?_ zs rfl).1 hzs)
          simp only [List.length_cons, List.length_append]
          omega
        · obtain ⟨ys, zs, rfl, hys, hzs⟩ := hmore (depth + 1) h
          obtain ⟨ys', zs', rfl, hys', hzs'⟩ :=
            (ih zs.length (by simp only [List.length_cons, List.length_append]; omega) zs rfl).2
              depth hzs
          refine ⟨.opening o :: (ys ++ .closing :: ys'), zs', ?_, .group hys hys', hzs'⟩
          simp only [List.cons_append, List.append_assoc]
      | closing =>
        refine ⟨fun h => ?_, fun depth h => ⟨[], more, rfl, .nil, h⟩⟩
        exact nomatch h
      | unit | edge | bar | quantifier | number | named => exact hflat rfl fun _ => rfl

theorem balanced_of_nestAll {xs : List Lexeme} (h : nestAll 0 xs = some 0) : Balanced xs :=
  (split_nestAll xs).1 h

namespace Frame

/-- The groups in the alternatives so far and in the terms of the last one. -/
def groups (f : Frame) : List Nat :=
  f.terms.flatMap Regex.groups ++ f.alternatives.flatMap Regex.groups

end Frame

theorem mem_groups_foldl {op : Regex → Regex → Regex}
    (hop : ∀ a b, (op a b).groups = a.groups ++ b.groups) (ts : List Regex) (r : Regex) (i : Nat) :
    i ∈ (ts.foldl (fun rest t => op t rest) r).groups ↔
      i ∈ r.groups ∨ i ∈ ts.flatMap Regex.groups := by
  induction ts generalizing r with
  | nil => simp
  | cons t ts ih =>
    rw [List.foldl_cons, ih, hop, List.flatMap_cons, List.mem_append, List.mem_append]
    tauto

namespace Frame

theorem mem_groups_row {f : Frame} {i : Nat} :
    i ∈ f.row.groups ↔ i ∈ f.terms.flatMap Regex.groups := by
  rw [row, mem_groups_foldl fun _ _ => rfl]
  exact or_iff_right List.not_mem_nil

theorem mem_groups_body {f : Frame} {i : Nat} : i ∈ f.body.groups ↔ i ∈ f.groups := by
  rw [body, mem_groups_foldl fun _ _ => rfl, mem_groups_row, groups, List.mem_append]

theorem groups_add (f : Frame) (t : Regex) : (f.add t).groups = t.groups ++ f.groups := by
  rw [groups, groups, add, List.flatMap_cons, List.append_assoc]

theorem mem_groups_split {f : Frame} {i : Nat} : i ∈ f.split.groups ↔ i ∈ f.groups := by
  rw [groups, groups, split, List.flatMap_nil, List.nil_append, List.flatMap_cons,
    List.mem_append, mem_groups_row, List.mem_append]

/-- A group that is closed adds its own number, if it has one, to those in it. -/
theorem mem_groups_close {f : Frame} {i : Nat} (h : i ∈ f.close.groups) :
    i ∈ f.groups ∨ (∃ name, f.opening = .capture name) ∧ i = f.index := by
  unfold close at h
  split at h
  · exact Or.inl (mem_groups_body.mp h)
  · rename_i name hopening
    rcases List.mem_cons.mp h with rfl | h
    · exact Or.inr ⟨⟨name, hopening⟩, rfl⟩
    · exact Or.inl (mem_groups_body.mp h)
  · exact Or.inl (mem_groups_body.mp h)

end Frame

/-- How many numbers an opening takes. -/
def Opening.size : Opening → Nat
  | capture _ => 1
  | _ => 0

theorem groupCount_cons (x : Lexeme) (xs : List Lexeme) :
    groupCount (x :: xs) = groupCount [x] + groupCount xs := by
  rw [← List.singleton_append]
  exact List.countP_append

theorem groupCount_append (xs ys : List Lexeme) :
    groupCount (xs ++ ys) = groupCount xs + groupCount ys :=
  List.countP_append

/-- The groups of more lexemes are numbered on. -/
theorem groupNames_append (n : Nat) (xs ys : List Lexeme) :
    groupNames n (xs ++ ys) = groupNames n xs ++ groupNames (n + groupCount xs) ys := by
  induction xs generalizing n with
  | nil => rfl
  | cons x xs ih =>
    cases x with
    | opening o =>
      cases o with
      | capture name =>
        have hcount : n + groupCount (.opening (.capture name) :: xs) =
            n + 1 + groupCount xs := by
          rw [groupCount_cons, ← Nat.add_assoc]
          rfl
        rw [hcount]
        cases name with
        | none => exact ih (n + 1)
        | some first => exact congrArg ((first, n + 1) :: ·) (ih (n + 1))
      | plain => exact ih n
      | look => exact ih n
    | unit | edge | closing | bar | quantifier | number | named => exact ih n

theorem groupCount_opening (o : Opening) : groupCount [.opening o] = o.size := by
  cases o <;> rfl

theorem groupCount_flat {x : Lexeme} (h : ∀ depth, nest depth x = some depth) :
    groupCount [x] = 0 := by
  cases x with
  | opening o => exact absurd (Option.some.inj (h 0)) (Nat.succ_ne_zero 0)
  | _ => rfl

namespace Reader

variable {names : List (Text × Nat)} {total : Nat}

/-- How reading goes on within a group: nothing around it changes, and the groups that are added
have new numbers. -/
structure Extends (r r' : Reader) (n : Nat) : Prop where
  outer : r'.outer = r.outer
  opening : r'.top.opening = r.top.opening
  index : r'.top.index = r.top.index
  count : r'.count = r.count + n
  groups : ∀ i ∈ r'.top.groups, i ∈ r.top.groups ∨ r.count < i

theorem Extends.refl (r : Reader) : r.Extends r 0 := ⟨rfl, rfl, rfl, rfl, fun _ h => Or.inl h⟩

theorem Extends.trans {r s t : Reader} {m n : Nat} (h : r.Extends s m) (h' : s.Extends t n) :
    r.Extends t (m + n) := by
  refine ⟨h'.outer.trans h.outer, h'.opening.trans h.opening, h'.index.trans h.index, ?_,
    fun i hi => ?_⟩
  · rw [h'.count, h.count, Nat.add_assoc]
  · rcases h'.groups i hi with hi | hi
    · exact h.groups i hi
    · have := h.count
      exact Or.inr (by omega)

/-- A term without groups is added. -/
theorem extends_add (r : Reader) {t : Regex} (ht : t.groups = []) : r.Extends (r.add t) 0 := by
  refine ⟨rfl, rfl, rfl, rfl, fun i hi => Or.inl ?_⟩
  rwa [add, Frame.groups_add, ht, List.nil_append] at hi

theorem extends_foldl_add {ts : List Regex} (hts : ∀ t ∈ ts, t.groups = []) (r : Reader) :
    r.Extends (ts.foldl add r) 0 := by
  induction ts generalizing r with
  | nil => exact Extends.refl r
  | cons t ts ih =>
    exact (r.extends_add (hts t List.mem_cons_self)).trans
      (ih (fun t ht => hts t (List.mem_cons_of_mem _ ht)) (r.add t))

theorem groups_numberTerms (total : Nat) (digits : List Char) :
    ∀ t ∈ numberTerms total digits, t.groups = [] := by
  have hliteral (us : List CodeUnit) :
      ∀ t ∈ us.map fun u => Regex.unit (.single u), t.groups = [] := by
    intro t ht
    obtain ⟨u, -, rfl⟩ := List.mem_map.mp ht
    rfl
  intro t ht
  unfold numberTerms at ht
  simp only at ht
  split at ht
  · rw [List.mem_singleton.mp ht]
    rfl
  · split at ht
    · exact nomatch ht
    · split at ht
      · exact hliteral _ t ht
      · exact hliteral _ t ht

/-- A lexeme that neither opens nor closes a group is read within the one that is open. -/
theorem extends_step {r r' : Reader} {x : Lexeme} (hx : ∀ depth, nest depth x = some depth)
    (h : step names total r x = some r') : r.Extends r' 0 := by
  cases x with
  | unit set =>
    rw [← Option.some.inj h]
    exact r.extends_add rfl
  | edge e =>
    rw [← Option.some.inj h]
    exact ⟨rfl, rfl, rfl, rfl, (r.extends_add rfl).groups⟩
  | opening o => exact absurd (Option.some.inj (hx 0)) (Nat.succ_ne_zero 0)
  | closing => exact nomatch hx 0
  | bar =>
    rw [← Option.some.inj h]
    exact ⟨rfl, rfl, rfl, rfl, fun i hi => Or.inl (Frame.mem_groups_split.mp hi)⟩
  | quantifier q =>
    rw [step] at h
    split at h
    · rename_i t ts hterms
      split at h
      · rw [← Option.some.inj h]
        refine ⟨rfl, rfl, rfl, rfl, fun i hi => Or.inl ?_⟩
        rwa [Frame.groups, hterms]
      · exact nomatch h
    · exact nomatch h
  | number digits =>
    rw [← Option.some.inj h]
    exact extends_foldl_add (groups_numberTerms total digits) r
  | named name =>
    obtain ⟨i, -, hi⟩ := Option.map_eq_some_iff.mp h
    rw [← hi]
    exact r.extends_add rfl

/-- A group whose lexemes are read within it is added as one term when it is closed. -/
theorem exists_frame_of_foldlM {o : Opening} {ys zs : List Lexeme} {r r' : Reader}
    (hys : ∀ {s s' : Reader}, ys.foldlM (step names total) s = some s' →
      s.Extends s' (groupCount ys))
    (h : (Lexeme.opening o :: (ys ++ .closing :: zs)).foldlM (step names total) r = some r') :
    ∃ f : Frame, f.opening = o ∧ f.index = r.count + o.size ∧
      (∀ i ∈ f.groups, r.count + o.size < i) ∧
      zs.foldlM (step names total)
        ⟨r.top.add f.close, r.outer, r.count + o.size + groupCount ys, f.repeatable⟩ = some r' := by
  have hopen : step names total r (.opening o) =
      some ⟨.new o (r.count + o.size), r.top :: r.outer, r.count + o.size, false⟩ := by
    cases o <;> rfl
  rw [List.foldlM_cons, hopen] at h
  change (ys ++ .closing :: zs).foldlM (step names total) _ = some r' at h
  rw [List.foldlM_append] at h
  obtain ⟨s, hs, h⟩ := Option.bind_eq_some_iff.mp h
  have hinner := hys hs
  refine ⟨s.top, hinner.opening, hinner.index, fun i hi => ?_, ?_⟩
  · exact (hinner.groups i hi).resolve_left List.not_mem_nil
  · rw [List.foldlM_cons, step, hinner.outer] at h
    rw [← hinner.count]
    exact h

/-- Balanced lexemes are read within the group that is open. -/
theorem extends_of_balanced {xs : List Lexeme} (h : Balanced xs) {r r' : Reader}
    (hread : xs.foldlM (step names total) r = some r') : r.Extends r' (groupCount xs) := by
  induction h generalizing r r' with
  | nil =>
    rw [← Option.some.inj hread]
    exact Extends.refl r
  | flat hx _ ih =>
    rw [List.foldlM_cons] at hread
    obtain ⟨s, hs, hread⟩ := Option.bind_eq_some_iff.mp hread
    rw [groupCount_cons, groupCount_flat hx]
    exact (extends_step hx hs).trans (ih hread)
  | @group o ys zs _ _ ihy ihz =>
    obtain ⟨f, hopening, hindex, hgroups, hzs⟩ := exists_frame_of_foldlM ihy hread
    have hclosed : r.Extends ⟨r.top.add f.close, r.outer, r.count + o.size + groupCount ys,
        f.repeatable⟩ (o.size + groupCount ys) := by
      refine ⟨rfl, rfl, rfl, Nat.add_assoc _ _ _, fun i hi => ?_⟩
      rw [Frame.groups_add, List.mem_append] at hi
      refine hi.symm.imp_right fun hi => ?_
      rcases Frame.mem_groups_close hi with hi | ⟨⟨name, hname⟩, rfl⟩
      · have := hgroups i hi
        omega
      · rw [hindex, ← hopening, hname]
        exact Nat.lt_succ_self r.count
    have hcount : groupCount (.opening o :: (ys ++ .closing :: zs)) =
        o.size + groupCount ys + groupCount zs := by
      rw [groupCount_cons, groupCount_opening, groupCount_append, groupCount_cons .closing,
        ← Nat.add_assoc]
      exact congrArg (_ + ·) (Nat.zero_add _)
    rw [hcount]
    exact hclosed.trans (ihz hzs)

/-- A group that keeps what balanced lexemes take is added under the next number, and the groups in
it have numbers above all that were given before. -/
theorem exists_group_of_foldlM {name : Option Text} {ys zs : List Lexeme} {r r' : Reader}
    (hys : Balanced ys)
    (h : (Lexeme.opening (.capture name) :: (ys ++ .closing :: zs)).foldlM (step names total) r =
      some r') :
    ∃ body b, (∀ i ∈ (Regex.group (r.count + 1) body).groups, r.count < i) ∧
      zs.foldlM (step names total)
        ⟨r.top.add (.group (r.count + 1) body), r.outer, r.count + 1 + groupCount ys, b⟩ =
          some r' := by
  obtain ⟨f, hopening, hindex, hgroups, hzs⟩ :=
    exists_frame_of_foldlM (fun hs => extends_of_balanced hys hs) h
  have hclose : f.close = .group (r.count + 1) f.body := by
    rw [Frame.close, hopening, hindex]
    rfl
  rw [hclose] at hzs
  refine ⟨f.body, f.repeatable, fun i hi => ?_, hzs⟩
  rcases List.mem_cons.mp hi with rfl | hi
  · exact Nat.lt_succ_self r.count
  · exact Nat.lt_of_succ_lt (hgroups i (Frame.mem_groups_body.mp hi))

/-- The groups that are open are those that are read. -/
theorem nest_of_step {r r' : Reader} {x : Lexeme} (h : step names total r x = some r') :
    nest r.outer.length x = some r'.outer.length := by
  cases x with
  | opening o =>
    rw [← Option.some.inj h]
    rfl
  | closing =>
    rw [step] at h
    split at h
    · exact nomatch h
    · rename_i f fs houter
      rw [← Option.some.inj h, houter]
      rfl
  | unit | edge | bar | quantifier | number | named =>
    rw [(extends_step (fun _ => rfl) h).outer]
    rfl

theorem nestAll_of_foldlM {xs : List Lexeme} {r r' : Reader}
    (h : xs.foldlM (step names total) r = some r') :
    nestAll r.outer.length xs = some r'.outer.length := by
  induction xs generalizing r with
  | nil =>
    rw [← Option.some.inj h]
    rfl
  | cons x xs ih =>
    rw [List.foldlM_cons] at h
    obtain ⟨s, hs, h⟩ := Option.bind_eq_some_iff.mp h
    rw [nestAll_cons, nest_of_step hs]
    exact ih h

end Reader

/-- Lexemes are put together if no name is given twice and every group is closed. -/
theorem exists_of_ofLexemes {xs : List Lexeme} {parsed : Parsed} (h : ofLexemes xs = some parsed) :
    ((groupNames 0 xs).map Prod.fst).Nodup ∧ ∃ r : Reader,
      xs.foldlM (Reader.step (groupNames 0 xs) (groupCount xs)) Reader.start = some r ∧
        r.outer = [] ∧ parsed = ⟨r.top.body, groupNames 0 xs⟩ := by
  unfold ofLexemes at h
  simp only at h
  split at h
  · rename_i hnodup
    obtain ⟨r, hr, h⟩ := Option.bind_eq_some_iff.mp h
    obtain ⟨regex, hfinish, h⟩ := Option.bind_eq_some_iff.mp h
    unfold Reader.finish at hfinish
    split at hfinish
    · rename_i hempty
      rw [← Option.some.inj hfinish] at h
      exact ⟨hnodup, r, hr, List.isEmpty_iff.mp hempty, (Option.some.inj h).symm⟩
    · exact nomatch hfinish
  · exact nomatch h

/-- What is an expression on its own does not close the group around it. -/
theorem afterClose_of_parse {us : List CodeUnit} (h : (parse us).isSome = true)
    (rest : List CodeUnit) : afterClose 0 false (us ++ unitOf ')' :: rest) = some rest := by
  obtain ⟨parsed, hparsed⟩ := Option.isSome_iff_exists.mp h
  obtain ⟨xs, hxs, hread⟩ := Option.bind_eq_some_iff.mp hparsed
  obtain ⟨-, r, hr, houter, -⟩ := exists_of_ofLexemes hread
  have hnest := Reader.nestAll_of_foldlM hr
  rw [houter] at hnest
  exact afterClose_of_balanced hxs hnest rest

end Regex

end CaseFiles
