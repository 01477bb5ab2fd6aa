import CaseFiles.Proofs.FileTree.LinkFree

/-!
# Walking in parts

A walk that goes on behind a directory goes on from where the directory really is, with the links
that are left to follow; behind anything else it goes nowhere. More links to follow change nothing
about a walk that ends. So what is at a name in a directory depends on the place of the directory
only. Main statements: `walk_append`, `walk_of_le`, for what is looked up `entry?_snoc`,
`exists_dir_of_entry?_append` and `find_of_entry?`, and for two spellings of a directory
`find_append_eq_or_loop`.
-/

namespace CaseFiles

open CaseFiles.Path (Plain)

/-- A segment stays where it is, leads up, or goes somewhere by a name. -/
theorem Path.stays_or_up_or_plain (s : Text) : (s = [] ∨ s = dot) ∨ s = dotDot ∨ Plain s := by
  by_cases hstay : s = [] ∨ s = dot
  · exact Or.inl hstay
  · rw [not_or] at hstay
    by_cases hup : s = dotDot
    · exact Or.inr (Or.inl hup)
    · exact Or.inr (Or.inr ⟨hstay.1, hstay.2, hup⟩)

namespace FileTree

variable {t : FileTree} {followLast : Bool} {links : Nat} {l a : Location} {s : Text}

theorem walk_nil : t.walk followLast links l [] = .found l := by
  cases links <;> rfl

theorem walk_stay (hs : s = [] ∨ s = Path.dot) :
    t.walk followLast links l (s :: a) = t.walk followLast links l a := by
  cases links <;> exact if_pos hs

theorem walk_up :
    t.walk followLast links l (Path.dotDot :: a) = t.walk followLast links l.dropLast a := by
  cases links <;> rfl

/-- What is at a name decides how a walk goes on. A link takes one of those that may be followed. -/
theorem walk_name (hs : Plain s) :
    t.walk followLast links l (s :: a) =
      match t.at? (l ++ [s]) with
      | some .dir => t.walk followLast links (l ++ [s]) a
      | some .file => if a.isEmpty then .found (l ++ [s]) else .fault .notDirectory
      | some (.link target) =>
        if a.isEmpty && !followLast then .found (l ++ [s])
        else
          match links with
          | 0 => .fault .loop
          | n + 1 =>
            t.walk followLast n (if Path.isAbsolute target then [] else l)
              (Path.splitSlash target ++ a)
      | none => if a.isEmpty then .vacant l s else .fault .missing := by
  have hstay : ¬ (s = [] ∨ s = Path.dot) := not_or.mpr ⟨hs.1, hs.2.1⟩
  cases links <;> exact (if_neg hstay).trans (if_neg hs.2.2)

/-- A walk goes on behind a directory from the place of the directory, with the links that are left.
Behind anything else it ends with one fault, whatever comes there. The links that are left are
counted first, since the target of a link may be longer than the way up to it. -/
theorem walk_append (hl : t.at? l = some .dir) :
    (∃ r left, left ≤ links ∧ t.walk true links l a = .found r ∧ t.at? r = some .dir ∧
      ∀ followLast b, b ≠ [] →
        t.walk followLast links l (a ++ b) = t.walk followLast left r b) ∨
    ∃ f, (∀ r, t.walk true links l a = .found r → t.at? r ≠ some .dir) ∧
      ∀ followLast b, b ≠ [] → t.walk followLast links l (a ++ b) = .fault f := by
  induction links using Nat.strongRecOn generalizing l a with
  | ind links hlinks =>
    induction a generalizing l with
    | nil => exact Or.inl ⟨l, links, Nat.le_refl links, walk_nil, hl, fun _ _ _ => rfl⟩
    | cons s a ih =>
      have hmore {b : List Text} (hb : b ≠ []) : (a ++ b).isEmpty = false := by simp [hb]
      rcases Path.stays_or_up_or_plain s with hstay | rfl | hs
      · simp only [List.cons_append, walk_stay hstay]
        exact ih hl
      · simp only [List.cons_append, walk_up]
        exact ih (at?_dir_above hl (List.dropLast_prefix l))
      · simp only [List.cons_append, walk_name hs]
        cases hat : t.at? (l ++ [s]) with
        | none =>
          refine Or.inr ⟨.missing, fun r h => ?_, fun followLast b hb => by simp [hmore hb]⟩
          simp only at h
          split at h <;> cases h
        | some k =>
          cases k with
          | dir => exact ih hat
          | file =>
            refine Or.inr ⟨.notDirectory, fun r h => ?_, fun followLast b hb => by simp [hmore hb]⟩
            simp only at h
            split at h
            · rw [← Walk.found.inj h, hat]
              simp
            · cases h
          | link target =>
            cases links with
            | zero => exact Or.inr ⟨.loop, by simp, fun followLast b hb => by simp [hmore hb]⟩
            | succ n =>
              have hbase : t.at? (if Path.isAbsolute target then [] else l) = some .dir := by
                split
                · exact t.at?_root
                · exact hl
              have hrest := hlinks n (Nat.lt_succ_self n) (a := Path.splitSlash target ++ a) hbase
              simp only [List.append_assoc] at hrest
              rcases hrest with ⟨r, left, hleft, hr, hdir, hgo⟩ | ⟨f, hr, hgo⟩
              · refine Or.inl ⟨r, left, Nat.le_succ_of_le hleft, by simpa using hr, hdir, ?_⟩
                intro followLast b hb
                simpa [hmore hb] using hgo followLast b hb
              · refine Or.inr ⟨f, by simpa using hr, fun followLast b hb => ?_⟩
                simpa [hmore hb] using hgo followLast b hb

/-- A walk that ends with some links to follow ends alike with more of them. -/
theorem walk_of_le {more : Nat} (hle : links ≤ more)
    (h : t.walk followLast links l a ≠ .fault .loop) :
    t.walk followLast more l a = t.walk followLast links l a := by
  induction links using Nat.strongRecOn generalizing more l a with
  | ind links hlinks =>
    induction a generalizing l with
    | nil => rw [walk_nil, walk_nil]
    | cons s a ih =>
      rcases Path.stays_or_up_or_plain s with hstay | rfl | hs
      · rw [walk_stay hstay] at h ⊢
        rw [walk_stay hstay, ih h]
      · rw [walk_up] at h ⊢
        rw [walk_up, ih h]
      · rw [walk_name hs] at h ⊢
        rw [walk_name hs]
        cases hat : t.at? (l ++ [s]) with
        | none => rfl
        | some k =>
          rw [hat] at h
          cases k with
          | dir => exact ih h
          | file => rfl
          | link target =>
            simp only at h ⊢
            split
            · rfl
            · rename_i hfollow
              rw [if_neg hfollow] at h
              cases links with
              | zero => exact absurd rfl h
              | succ n =>
                cases more with
                | zero => exact absurd hle (Nat.not_succ_le_zero n)
                | succ m => exact hlinks n (Nat.lt_succ_self n) (Nat.le_of_succ_le_succ hle) h

/-- A walk that ends at something other than a link ends there if links at the end are followed,
too. -/
theorem walk_follow {r : Location} (h : t.walk false links l a = .found r)
    (hr : ∀ target, t.at? r ≠ some (.link target)) : t.walk true links l a = .found r := by
  induction links using Nat.strongRecOn generalizing l a with
  | ind links hlinks =>
    induction a generalizing l with
    | nil =>
      rw [walk_nil] at h ⊢
      exact h
    | cons s a ih =>
      rcases Path.stays_or_up_or_plain s with hstay | rfl | hs
      · rw [walk_stay hstay] at h ⊢
        exact ih h
      · rw [walk_up] at h ⊢
        exact ih h
      · rw [walk_name hs] at h ⊢
        cases hat : t.at? (l ++ [s]) with
        | none =>
          rw [hat] at h
          exact h
        | some k =>
          rw [hat] at h
          cases k with
          | dir => exact ih h
          | file => exact h
          | link target =>
            simp only [Bool.not_false, Bool.and_true, Bool.not_true, Bool.and_false,
              Bool.false_eq_true, if_false] at h ⊢
            split at h
            · rw [Walk.found.inj h] at hat
              exact absurd hat (hr target)
            · cases links with
              | zero => exact nomatch h
              | succ n => exact hlinks n (Nat.lt_succ_self n) h

/-- What is found is found by walking. -/
theorem find_eq_ok_iff_locate {way r : Location} : t.find way = .ok r ↔ t.locate way = .found r := by
  rw [find]
  cases t.locate way <;> simp

/-- Behind a directory, looking up goes on from its place. -/
theorem exists_left_of_find {r : Location} (h : t.find l = .ok r) (hr : t.at? r = some .dir) :
    ∃ left, ∀ followLast b, b ≠ [] →
      t.walk followLast mostLinks [] (l ++ b) = t.walk followLast left r b := by
  rw [find_eq_ok_iff_locate] at h
  rcases @walk_append t mostLinks [] l t.at?_root with ⟨r', left, -, hr', -, hgo⟩ | ⟨f, hno, -⟩
  · obtain rfl := Walk.found.inj (h.symm.trans hr')
    exact ⟨left, hgo⟩
  · exact absurd hr (hno r h)

/-- What is at a name in a directory is what is in the directory at its place. -/
theorem entry?_snoc {r : Location} {n : Text} (h : t.find l = .ok r) (hr : t.at? r = some .dir)
    (hn : Plain n) : t.entry? (l ++ [n]) = (t.at? (r ++ [n])).elim (.error .missing) .ok := by
  obtain ⟨left, hgo⟩ := exists_left_of_find h hr
  unfold entry?
  rw [hgo false [n] (List.cons_ne_nil n []), walk_name hn]
  cases hat : t.at? (r ++ [n]) with
  | none => rfl
  | some k => cases k <;> simp [walk_nil, hat]

/-- Something can only be below a directory. -/
theorem exists_dir_of_entry?_append {way : Location} {k : Entry} (h : t.entry? (l ++ way) = .ok k)
    (hway : way ≠ []) : ∃ r, t.find l = .ok r ∧ t.at? r = some .dir := by
  rcases @walk_append t mostLinks [] l t.at?_root with ⟨r, -, -, hr, hdir, -⟩ | ⟨f, -, hgo⟩
  · exact ⟨r, find_eq_ok_iff_locate.mpr hr, hdir⟩
  · unfold entry? at h
    rw [hgo false way hway] at h
    cases h

/-- What is no link is there at the end of a way. -/
theorem find_of_entry? {k : Entry} (h : t.entry? l = .ok k) (hk : ∀ target, k ≠ .link target) :
    ∃ r, t.find l = .ok r ∧ t.at? r = some k := by
  unfold entry? at h
  cases hwalk : t.walk false mostLinks [] l with
  | vacant place n => simp [hwalk] at h
  | fault f => simp [hwalk] at h
  | found r =>
    cases hat : t.at? r with
    | none => simp [hwalk, hat] at h
    | some k' =>
      simp only [hwalk, hat, Option.elim_some, Except.ok.injEq] at h
      subst h
      refine ⟨r, find_eq_ok_iff_locate.mpr (walk_follow hwalk fun target hlink => ?_), hat⟩
      rw [hat] at hlink
      exact hk target (Option.some.inj hlink)

/-- What is listed is at the place of a directory. -/
theorem exists_of_mem_list {n : Text} {k : Entry} (h : (n, k) ∈ t.list l) :
    ∃ r, t.find l = .ok r ∧ t.at? r = some .dir ∧ t.at? (r ++ [n]) = some k := by
  unfold list at h
  split at h
  · rename_i r hr
    have hat := mem_children.mp h
    exact ⟨r, hr, t.at?_dir_of_child hat, hat⟩
  · cases h

/-- What is listed can be looked up by its name. -/
theorem entry?_of_mem_list {n : Text} {k : Entry} (h : (n, k) ∈ t.list l) :
    t.entry? (l ++ [n]) = .ok k := by
  obtain ⟨r, hr, hdir, hat⟩ := exists_of_mem_list h
  rw [entry?_snoc hr hdir (plain_of_at? hat n (List.mem_append_right r List.mem_cons_self)), hat]
  rfl

section

variable {l' r way : Location} {n : Text}

/-- There is nothing below a file. -/
theorem eq_nil_of_entry?_append {ns : Location} {k : Entry} (h : t.entry? l = .ok .file)
    (hk : t.entry? (l ++ ns) = .ok k) : ns = [] := by
  by_contra hns
  obtain ⟨r, hr, hat⟩ := find_of_entry? h (by simp)
  obtain ⟨r', hr', hdir⟩ := exists_dir_of_entry?_append hk hns
  obtain rfl := Except.ok.inj (hr.symm.trans hr')
  rw [hat] at hdir
  cases hdir

/-- Below two spellings of a directory ways lead to the same places, unless too many links are met:
the spelling that leaves more links to follow goes at least as far. -/
theorem find_append_eq_or_loop (hl : t.find l = .ok r) (hl' : t.find l' = .ok r)
    (hr : t.at? r = some .dir) (way : Location) :
    t.find (l ++ way) = t.find (l' ++ way) ∨ t.find (l ++ way) = .error .loop ∨
      t.find (l' ++ way) = .error .loop := by
  by_cases hway : way = []
  · subst hway
    rw [List.append_nil, List.append_nil, hl, hl']
    exact Or.inl rfl
  · obtain ⟨left, hgo⟩ := exists_left_of_find hl hr
    obtain ⟨left', hgo'⟩ := exists_left_of_find hl' hr
    unfold find locate
    rw [hgo true way hway, hgo' true way hway]
    rcases Nat.le_total left left' with hle | hle
    · by_cases hloop : t.walk true left r way = .fault .loop
      · exact Or.inr (Or.inl (by rw [hloop]))
      · exact Or.inl (by rw [walk_of_le hle hloop])
    · by_cases hloop : t.walk true left' r way = .fault .loop
      · exact Or.inr (Or.inr (by rw [hloop]))
      · exact Or.inl (by rw [walk_of_le hle hloop])

theorem find_eq_loop_iff_locate : t.find l = .error .loop ↔ t.locate l = .fault .loop := by
  rw [find]
  cases t.locate l <;> simp

/-- Where there are no links, not too many are met. -/
theorem walk_ne_loop {followLast : Bool} {links : Nat} (hway : ∀ n ∈ way, Plain n)
    (h : ∀ front target, t.at? (r ++ front) ≠ some (.link target)) :
    t.walk followLast links r way ≠ .fault .loop := by
  induction way generalizing r with
  | nil =>
    rw [walk_nil]
    exact Walk.noConfusion
  | cons n way ih =>
    rw [walk_name (hway n List.mem_cons_self)]
    cases hat : t.at? (r ++ [n]) with
    | none =>
      simp only
      split <;> simp
    | some k =>
      cases k with
      | dir =>
        refine ih (fun m hm => hway m (List.mem_cons_of_mem n hm)) fun front target => ?_
        rw [List.append_assoc]
        exact h ([n] ++ front) target
      | file =>
        simp only
        split <;> simp
      | link target => exact absurd hat (h [n] target)

/-- A directory in a directory is found at its name. -/
theorem find_snoc_dir (h : t.find l = .ok r) (hat : t.at? (r ++ [n]) = some .dir) :
    t.find (l ++ [n]) = .ok (r ++ [n]) := by
  obtain ⟨left, hgo⟩ := exists_left_of_find h (t.at?_dir_of_child hat)
  have hn := plain_of_at? hat n (List.mem_append_right r List.mem_cons_self)
  rw [find_eq_ok_iff_locate, locate, hgo true [n] (List.cons_ne_nil n []), walk_name hn, hat]
  exact walk_nil

/-- What is at a name in a directory does not depend on how the directory is spelled. -/
theorem entry?_snoc_of_find {k : Entry} (h : t.find l = t.find l') (hn : Plain n)
    (hk : t.entry? (l ++ [n]) = .ok k) : t.entry? (l' ++ [n]) = .ok k := by
  obtain ⟨r, hr, hdir⟩ := exists_dir_of_entry?_append hk (List.cons_ne_nil n [])
  rwa [entry?_snoc (h ▸ hr) hdir hn, ← entry?_snoc hr hdir hn]

/-- What can be found is something itself. -/
theorem exists_entry?_of_find (hl : ∀ n ∈ l, Plain n) (h : t.find l = .ok r) :
    ∃ k, t.entry? l = .ok k := by
  rcases List.eq_nil_or_concat l with rfl | ⟨front, n, rfl⟩
  · exact ⟨.dir, rfl⟩
  · rw [List.concat_eq_append] at hl h ⊢
    have hn := hl n (List.mem_append_right front List.mem_cons_self)
    rw [find_eq_ok_iff_locate] at h
    rcases @walk_append t mostLinks [] front t.at?_root with
      ⟨r', left, -, hr', hdir, hgo⟩ | ⟨f, -, hgo⟩
    · rw [entry?_snoc (find_eq_ok_iff_locate.mpr hr') hdir hn]
      rw [locate, hgo true [n] (List.cons_ne_nil n []), walk_name hn] at h
      cases hat : t.at? (r' ++ [n]) with
      | none =>
        rw [hat] at h
        cases h
      | some k => exact ⟨k, rfl⟩
    · rw [locate, hgo true [n] (List.cons_ne_nil n [])] at h
      cases h

end

end FileTree

end CaseFiles
