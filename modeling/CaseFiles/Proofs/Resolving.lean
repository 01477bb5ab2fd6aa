import CaseFiles.Proofs.Placing

/-!
# The deepest part of a path that exists

Resolving a path goes up until something is there, and the names that were taken off on the way are
put back behind its real place. None of them can land on something that is there: going on from a
location and from its real place comes to the same, so what is missing behind the one is missing
behind the other. Main statements: `exists_front_of_settle` and `settle_eq_error_iff` about trees,
`resolve_deepest` about paths.
-/

namespace CaseFiles

namespace FileTree

variable {t : FileTree} {l root front : Location}

/-- There is nothing at a location, or something on the way to it is no directory. -/
def Missing (t : FileTree) (l : Location) : Prop :=
  t.real l = .error .missing ∨ t.real l = .error .notDirectory

theorem missing_of_real {f : Fault} (h : t.real l = .error f) (hf : f ≠ .loop) : t.Missing l := by
  cases f with
  | missing => exact Or.inl h
  | notDirectory => exact Or.inr h
  | loop => exact absurd rfl hf

/-- What is missing is nowhere. -/
theorem Missing.real_ne_ok (h : t.Missing l) (m : Location) : t.real l ≠ .ok m := by
  rcases h with h | h <;> simp [h]

/-- A prefix of one location behind another ends within the first or goes on behind it. -/
theorem prefix_append_cases {a b c : Location} (h : c <+: a ++ b) :
    c <+: a ∨ ∃ more, more ≠ [] ∧ more <+: b ∧ c = a ++ more := by
  rcases List.prefix_or_prefix_of_prefix h (List.prefix_append a b) with hc | ⟨more, rfl⟩
  · exact Or.inl hc
  · by_cases hne : more = []
    · rw [hne, List.append_nil]
      exact Or.inl (List.prefix_refl a)
    · exact Or.inr ⟨more, hne, (List.prefix_append_right_inj a).mp h, rfl⟩

/-- What is settled is the real place of some part of the location, and the names behind this part,
where nothing is at any of them. -/
theorem exists_front_of_settle (h : t.settle l = .ok root) :
    ∃ front rest r, l = front ++ rest ∧ t.real front = .ok r ∧ root = r ++ rest ∧
      ∀ more, more ≠ [] → more <+: rest → t.Missing (front ++ more) := by
  induction l using List.reverseRecOn generalizing root with
  | nil =>
    obtain rfl := Except.ok.inj h
    exact ⟨[], [], [], rfl, t.real_root, rfl,
      fun more hne hmore => absurd (List.prefix_nil.mp hmore) hne⟩
  | append_singleton l n ih =>
    rcases settle_snoc_cases h with hreal | ⟨f, up, hloop, hf, hup, rfl⟩
    · exact ⟨l ++ [n], [], root, (List.append_nil _).symm, hreal, (List.append_nil _).symm,
        fun more hne hmore => absurd (List.prefix_nil.mp hmore) hne⟩
    · obtain ⟨front, rest, r, rfl, hr, rfl, hmissing⟩ := ih hup
      refine ⟨front, rest ++ [n], r, List.append_assoc _ _ _, hr, List.append_assoc _ _ _,
        fun more hne hmore => ?_⟩
      rcases List.prefix_concat_iff.mp hmore with rfl | hmore
      · rw [← List.append_assoc]
        exact missing_of_real hf hloop
      · exact hmissing more hne hmore

/-- Settling fails only by going round in a circle, and exactly if finding the real place does. What
goes round before the last name does so with it. -/
theorem settle_eq_error_iff {f : Fault} :
    t.settle l = .error f ↔ f = .loop ∧ t.real l = .error .loop := by
  constructor
  · intro h
    induction l using List.reverseRecOn with
    | nil => cases h
    | append_singleton l n ih =>
      rw [settle_snoc] at h
      split at h
      next => cases h
      next hloop => exact ⟨(Except.error.inj h).symm, hloop⟩
      next g hne hg =>
        cases hup : t.settle l with
        | ok up =>
          rw [hup] at h
          cases h
        | error f' =>
          rw [hup] at h
          obtain rfl := Except.error.inj h
          obtain ⟨-, hl⟩ := ih hup
          obtain ⟨follow, happend⟩ := exists_real_append t
          rw [happend, hl] at hg
          exact absurd (Except.error.inj hg).symm hne
  · rintro ⟨rfl, h⟩
    exact settle_of_loop h

/-- A part of what is settled is real, or it is missing together with all that is behind it. -/
theorem real_or_missing {rest r q : Location} (hr : t.real front = .ok r)
    (hmissing : ∀ more, more ≠ [] → more <+: rest → t.Missing (front ++ more))
    (hq : q <+: r ++ rest) :
    t.real q = .ok q ∨ ∀ longer, q <+: longer → longer <+: r ++ rest → t.Missing longer := by
  have hbehind {more : Location} (hne : more ≠ []) (hmore : more <+: rest) :
      t.Missing (r ++ more) := by
    unfold Missing
    rw [← real_append_of_settle (settle_of_real hr)]
    exact hmissing more hne hmore
  rcases prefix_append_cases hq with ⟨way, rfl⟩ | ⟨more, hne, -, rfl⟩
  · exact Or.inl (real_of_solid (solid_of_real hr).above)
  · refine Or.inr fun longer hlonger hprefix => ?_
    rcases prefix_append_cases hprefix with hshort | ⟨further, hfurther, hrest, rfl⟩
    · have hlength := (hlonger.trans hshort).length_le
      rw [List.length_append] at hlength
      exact absurd (List.eq_nil_of_length_eq_zero (by omega)) hne
    · exact hbehind hfurther hrest

end FileTree

namespace Path

/-- The path of a place is absolute, and its segments are the names of the place. -/
theorem segments_ofLocation {l : Location} (h : ∀ n ∈ l, isName n = true) (hne : l ≠ []) :
    splitSlash (ofLocation l) = [] :: l := by
  rw [ofLocation, splitSlash_slash,
    splitSlash_joinSlash hne fun n hn => (isName_iff.mp (h n hn)).2.1]

/-- No slash is at the end of the path of a place other than the root. -/
theorem getLast?_ofLocation_ne_slash {l : Location} (h : ∀ n ∈ l, isName n = true) (hne : l ≠ []) :
    (ofLocation l).getLast? ≠ some '/' := by
  intro hslash
  have hlast := getLast?_splitSlash hslash
  rw [segments_ofLocation h hne, List.getLast?_cons_of_ne_nil hne,
    List.getLast?_eq_some_getLast hne] at hlast
  exact (isName_iff.mp (h _ (List.getLast_mem hne))).1.1 (Option.some.inj hlast)

end Path

open FileTree (Missing)

/-- Resolving a path fails only if links go round in a circle, and then finding the real place of its
location does, too. Otherwise the path is resolved to the real place of the longest part of its
location that has one, and the names behind this part as they are. The result is an absolute path of
proper names, without a slash at the end if it is not the root. Each part of it is real, or it is
missing together with all that is behind it. -/
theorem resolve_deepest {d : Disk} {p : Text} (hp : '\x00' ∉ p) :
    (∀ cause, d.resolve p = .error cause ↔
      cause = .linkLoop ∧ d.tree.real (d.locate p) = .error .loop) ∧
    ∀ r, d.resolve p = .ok r → ∃ front rest root : Location,
      d.locate p = front ++ rest ∧ d.tree.real front = .ok root ∧
      (∀ l m, l <+: d.locate p → d.tree.real l = .ok m → l <+: front) ∧
      r = Path.ofLocation (root ++ rest) ∧ Path.isAbsolute r = true ∧
      (r = ['/'] ∨ Path.splitSlash r = [] :: (root ++ rest) ∧
        (∀ s ∈ root ++ rest, Path.Plain s) ∧ r.getLast? ≠ some '/') ∧
      ∀ q, q <+: root ++ rest → d.tree.real q = .ok q ∨
        ∀ longer, q <+: longer → longer <+: root ++ rest → d.tree.Missing longer := by
  have hnul := Disk.nul_not_mem_locate (d := d) hp
  constructor
  · intro cause
    rw [Disk.resolve, Disk.settle, Disk.any_nul_eq_false_iff.mpr hnul, if_neg (by decide)]
    cases hsettle : d.tree.settle (d.locate p) with
    | ok root =>
      constructor
      · intro h
        cases h
      · rintro ⟨-, h⟩
        cases hsettle.symm.trans (FileTree.settle_of_loop h)
    | error f =>
      obtain ⟨-, hloop⟩ := FileTree.settle_eq_error_iff.mp hsettle
      constructor
      · intro h
        exact ⟨(Except.error.inj h).symm, hloop⟩
      · rintro ⟨rfl, -⟩
        rfl
  · intro r hr
    obtain ⟨place, hplace, rfl⟩ := Disk.exists_settle_of_resolve hr
    obtain ⟨front, rest, root, hsplit, hfront, rfl, hmissing⟩ :=
      FileTree.exists_front_of_settle (Disk.settle_eq_ok_iff.mp hplace).2
    have hname := Disk.isName_of_settle hplace
    refine ⟨front, rest, root, hsplit, hfront, fun l m hl hm => ?_, rfl, rfl, ?_,
      fun q hq => FileTree.real_or_missing hfront hmissing hq⟩
    · rw [hsplit] at hl
      rcases FileTree.prefix_append_cases hl with hshort | ⟨more, hne, hmore, rfl⟩
      · exact hshort
      · exact absurd hm ((hmissing more hne hmore).real_ne_ok m)
    · by_cases hroot : root ++ rest = []
      · exact Or.inl (by rw [hroot]; rfl)
      · exact Or.inr ⟨Path.segments_ofLocation hname hroot,
          fun s hs => (Path.isName_iff.mp (hname s hs)).1,
          Path.getLast?_ofLocation_ne_slash hname hroot⟩

/-- A disk with the directory `d`, the link `l` to it, the link `k` in it that leads nowhere, and the
link `o` to itself. -/
def knottedDisk : Disk :=
  ⟨(((FileTree.empty.insert [] ['d'] .dir).insert [] ['l'] (.link ['d'])).insert [['d']] ['k']
    (.link ['.', '.', '/', 'e'])).insert [] ['o'] (.link ['o']), [], Disk.named_root⟩

/-- Behind a link that leads nowhere a name is kept below the real place of the directory with the
link in it, and a name behind a link to itself is not resolved. -/
theorem resolve_deepest_knotted :
    '\x00' ∉ ['l', '/', 'k', '/', 'a'] ∧ '\x00' ∉ ['o', '/', 'a'] ∧
      knottedDisk.resolve ['l', '/', 'k', '/', 'a'] = .ok ['/', 'd', '/', 'k', '/', 'a'] ∧
      (∃ front rest root : Location,
        knottedDisk.locate ['l', '/', 'k', '/', 'a'] = front ++ rest ∧
          knottedDisk.tree.real front = .ok root ∧ [['l']] <+: front ∧
          ['/', 'd', '/', 'k', '/', 'a'] = Path.ofLocation (root ++ rest)) ∧
      knottedDisk.resolve ['o', '/', 'a'] = .error .linkLoop := by
  have hkept : '\x00' ∉ ['l', '/', 'k', '/', 'a'] := by decide
  have hloop : '\x00' ∉ ['o', '/', 'a'] := by decide
  have hresolve : knottedDisk.resolve ['l', '/', 'k', '/', 'a'] =
      .ok ['/', 'd', '/', 'k', '/', 'a'] := rfl
  obtain ⟨-, hdeepest⟩ := resolve_deepest (d := knottedDisk) hkept
  obtain ⟨front, rest, root, hsplit, hfront, hlongest, hr, -, -, -⟩ := hdeepest _ hresolve
  have hlink : knottedDisk.tree.real [['l']] = .ok [['d']] := rfl
  refine ⟨hkept, hloop, hresolve, ⟨front, rest, root, hsplit, hfront, ?_, hr⟩, ?_⟩
  · exact hlongest [['l']] [['d']] ⟨[['k'], ['a']], rfl⟩ hlink
  · exact ((resolve_deepest (d := knottedDisk) hloop).1 .linkLoop).mpr ⟨rfl, rfl⟩

end CaseFiles
