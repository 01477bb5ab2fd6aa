import CaseFiles.FileTree.Resolve
import CaseFiles.Proofs.FileTree.LinkFree
import CaseFiles.Proofs.Path.Normalizing

/-!
# Settling below a directory

Resolving works off a location name by name, so what is resolved below a directory depends on the
real place of the directory only, wherever links stand: what is settled stays where it is, and it is
all the same to go on from it or from the location that it was settled from. If there are no links
below the real place, then the names below it are kept. Main statements: `settle_of_settle`,
`settle_append_of_settle`, `settle_append`, and `forall_mem_of_settle` about the names that
resolving brings in.
-/

namespace CaseFiles

namespace FileTree

variable {t : FileTree}

/-- From a place on, no link stands on the way by some names. -/
def NoLinks (t : FileTree) (l way : Location) : Prop :=
  ∀ front, front ≠ [] → front <+: way → ∀ target, t.at? (l ++ front) ≠ some (.link target)

theorem NoLinks.tail {l way : Location} {n : Text} (h : t.NoLinks l (n :: way)) :
    t.NoLinks (l ++ [n]) way := by
  intro front _ hfront target
  have hassoc : l ++ [n] ++ front = l ++ n :: front := by simp
  rw [hassoc]
  exact h (n :: front) (List.cons_ne_nil n front) ((List.prefix_cons_inj n).mpr hfront) target

theorem NoLinks.of_prefix {l way front : Location} (h : t.NoLinks l way) (hfront : front <+: way) :
    t.NoLinks l front :=
  fun more hne hmore => h more hne (hmore.trans hfront)

/-- A way is gone on from where its first part ends. -/
theorem realFrom_append {follow : Location → Except Fault Location} (l a b : Location) :
    t.realFrom follow l (a ++ b) =
      (t.realFrom follow l a).bind fun r => t.realFrom follow r b := by
  induction a generalizing l with
  | nil => rfl
  | cons n a ih =>
    rw [List.cons_append, realFrom, realFrom]
    cases t.at? (l ++ [n]) with
    | none => rfl
    | some k =>
      cases k with
      | file | dir => exact ih (l ++ [n])
      | link target =>
        simp only [bind, Except.bind]
        cases t.find (l ++ [n]) with
        | error f => rfl
        | ok _ =>
          simp only
          cases follow (Path.locate l target) with
          | error f => rfl
          | ok r => exact ih r

/-- The real place of a longer location is found by going on from that of a shorter one. -/
theorem exists_real_append (t : FileTree) :
    ∃ follow : Location → Except Fault Location, ∀ l way : Location,
      t.real (l ++ way) = (t.real l).bind fun r => t.realFrom follow r way := by
  unfold real
  cases t.linkCount with
  | zero => exact ⟨_, fun l way => realFrom_append [] l way⟩
  | succ n => exact ⟨_, fun l way => realFrom_append [] l way⟩

/-- Where no link stands on the way it is gone literally, as far as it exists. -/
theorem realFrom_of_noLinks {follow : Location → Except Fault Location} {l way : Location}
    (h : t.NoLinks l way) :
    t.realFrom follow l way = .ok (l ++ way) ∨
      t.realFrom follow l way = .error .missing ∨
      t.realFrom follow l way = .error .notDirectory := by
  induction way generalizing l with
  | nil =>
    rw [realFrom, List.append_nil]
    exact Or.inl rfl
  | cons n way ih =>
    have hassoc : l ++ n :: way = l ++ [n] ++ way := by simp
    have hhere := h [n] (List.cons_ne_nil n []) (List.prefix_append [n] way)
    rw [hassoc, realFrom]
    cases hat : t.at? (l ++ [n]) with
    | some k =>
      cases k with
      | file | dir => exact ih h.tail
      | link target => exact absurd hat (hhere target)
    | none =>
      apply Or.inr
      by_cases hdir : t.isDir l = true
      · exact Or.inl (by rw [if_pos hdir])
      · exact Or.inr (by rw [if_neg hdir])

/-- There is something at a place, and it is no link. -/
def Solid (t : FileTree) (l : Location) : Prop := t.at? l = some .file ∨ t.at? l = some .dir

theorem solid_root (t : FileTree) : t.Solid [] := Or.inr t.at?_root

/-- What is above something that is no link is a directory. -/
theorem Solid.above {l way : Location} (h : t.Solid (l ++ way)) : t.Solid l := by
  by_cases hway : way = []
  · rwa [hway, List.append_nil] at h
  · rcases h with h | h
    · exact Or.inr (at?_dir_of_append h hway)
    · exact Or.inr (at?_dir_of_append h hway)

theorem Solid.isName {l : Location} (h : t.Solid l) {n : Text} (hn : n ∈ l) :
    Path.isName n = true := by
  rcases h with h | h
  · exact t.isName_of_at? h hn
  · exact t.isName_of_at? h hn

/-- The way to something that is no link is gone literally. -/
theorem realFrom_of_solid {follow : Location → Except Fault Location} {l way : Location}
    (h : t.Solid (l ++ way)) : t.realFrom follow l way = .ok (l ++ way) := by
  induction way generalizing l with
  | nil =>
    rw [List.append_nil]
    rfl
  | cons n way ih =>
    have hassoc : l ++ n :: way = l ++ [n] ++ way := by simp
    rw [hassoc] at h ⊢
    rw [realFrom]
    rcases h.above with hat | hat
    · rw [hat]
      exact ih h
    · rw [hat]
      exact ih h

/-- A way from something that is no link ends at such a thing. -/
theorem solid_of_realFrom {follow : Location → Except Fault Location}
    (hfollow : ∀ l r, follow l = .ok r → t.Solid r) {l way r : Location}
    (hl : t.Solid l) (h : t.realFrom follow l way = .ok r) : t.Solid r := by
  induction way generalizing l with
  | nil =>
    obtain rfl := Except.ok.inj h
    exact hl
  | cons n way ih =>
    rw [realFrom] at h
    cases hat : t.at? (l ++ [n]) with
    | none =>
      rw [hat] at h
      cases h
    | some k =>
      rw [hat] at h
      cases k with
      | file => exact ih (Or.inl hat) h
      | dir => exact ih (Or.inr hat) h
      | link target =>
        simp only [bind, Except.bind] at h
        cases hfind : t.find (l ++ [n]) with
        | error f =>
          rw [hfind] at h
          cases h
        | ok _ =>
          rw [hfind] at h
          cases hreal : follow (Path.locate l target) with
          | error f =>
            simp only [hreal] at h
            cases h
          | ok r' =>
            simp only [hreal] at h
            exact ih (hfollow _ _ hreal) h

/-- The real place of a location holds something that is no link. -/
theorem solid_of_real {l r : Location} (h : t.real l = .ok r) : t.Solid r := by
  have hdeep (n : Nat) : ∀ l r, t.realDeep n l = .ok r → t.Solid r := by
    induction n with
    | zero =>
      intro l r h
      refine solid_of_realFrom (fun _ _ hloop => ?_) t.solid_root h
      exact nomatch hloop
    | succ n ih => exact fun l r h => solid_of_realFrom ih t.solid_root h
  exact hdeep t.linkCount l r h

/-- A place that holds something other than a link is real. -/
theorem real_of_solid {l : Location} (h : t.Solid l) : t.real l = .ok l := by
  unfold real
  cases t.linkCount <;> exact realFrom_of_solid h

theorem real_root (t : FileTree) : t.real [] = .ok [] := real_of_solid t.solid_root

/-- A name that a path can have as a segment. -/
def Proper (n : Text) : Prop := n ≠ [] ∧ '/' ∉ n

theorem settle_snoc (l : Location) (n : Text) :
    t.settle (l ++ [n]) =
      match t.real (l ++ [n]) with
      | .ok r => .ok r
      | .error .loop => .error .loop
      | .error _ => (t.settle l).map (· ++ [n]) := by
  rw [settle, List.reverse_append, List.reverse_singleton, List.singleton_append, settleUp,
    List.reverse_cons, List.reverse_reverse]
  rfl

/-- What is settled is the real place if there is one; else it keeps the last name. -/
theorem settle_snoc_cases {l root : Location} {n : Text} (h : t.settle (l ++ [n]) = .ok root) :
    t.real (l ++ [n]) = .ok root ∨
      ∃ f up, f ≠ Fault.loop ∧ t.real (l ++ [n]) = .error f ∧ t.settle l = .ok up ∧
        root = up ++ [n] := by
  rw [settle_snoc] at h
  split at h
  next r hr => exact Or.inl (hr.trans h)
  next => exact nomatch h
  next f hloop hf =>
    cases hsettle : t.settle l with
    | error f =>
      rw [hsettle] at h
      exact nomatch h
    | ok up =>
      rw [hsettle] at h
      exact Or.inr ⟨f, up, hloop, hf, rfl, (Except.ok.inj h).symm⟩

/-- What exists is settled at its real place. -/
theorem settle_of_real {l r : Location} (h : t.real l = .ok r) : t.settle l = .ok r := by
  induction l using List.reverseRecOn with
  | nil =>
    obtain rfl := Except.ok.inj (t.real_root.symm.trans h)
    rfl
  | append_singleton l n _ => rw [settle_snoc, h]

/-- What leads round in a circle is not settled. -/
theorem settle_of_loop {l : Location} (h : t.real l = .error .loop) :
    t.settle l = .error .loop := by
  induction l using List.reverseRecOn with
  | nil => exact nomatch t.real_root.symm.trans h
  | append_singleton l n _ => rw [settle_snoc, h]

/-- What does not exist keeps its last name. -/
theorem settle_of_missing {l : Location} {n : Text}
    (h : t.real (l ++ [n]) = .error .missing ∨ t.real (l ++ [n]) = .error .notDirectory) :
    t.settle (l ++ [n]) = (t.settle l).map (· ++ [n]) := by
  rw [settle_snoc]
  rcases h with h | h <;> rw [h]

/-- What is settled has names of the tree, which are proper, and names of what it was settled from. -/
theorem forall_mem_of_settle {P : Text → Prop} (hname : ∀ n, Path.isName n = true → P n)
    {l r : Location} (hl : ∀ n ∈ l, P n) (h : t.settle l = .ok r) : ∀ n ∈ r, P n := by
  induction l using List.reverseRecOn generalizing r with
  | nil =>
    obtain rfl := Except.ok.inj h
    exact hl
  | append_singleton l n ih =>
    intro m hm
    rcases settle_snoc_cases h with hreal | ⟨f, up, -, -, hup, rfl⟩
    · exact hname m ((solid_of_real hreal).isName hm)
    · rcases List.mem_append.mp hm with hm | hm
      · exact ih (fun m hm => hl m (List.mem_append_left [n] hm)) hup m hm
      · exact hl m (List.mem_append_right l hm)

/-- Going on from a location comes to the same real place as going on from where it is settled. -/
theorem real_append_of_settle {l root : Location} (h : t.settle l = .ok root) (way : Location) :
    t.real (l ++ way) = t.real (root ++ way) := by
  obtain ⟨follow, happend⟩ := exists_real_append t
  induction l using List.reverseRecOn generalizing root way with
  | nil =>
    obtain rfl := Except.ok.inj h
    rfl
  | append_singleton l n ih =>
    rcases settle_snoc_cases h with hreal | ⟨f, up, -, -, hup, rfl⟩
    · rw [happend, happend root, hreal, real_of_solid (solid_of_real hreal)]
    · rw [List.append_assoc, List.append_assoc, ih hup]

/-- What is settled stays where it is. -/
theorem settle_of_settle {l root : Location} (h : t.settle l = .ok root) :
    t.settle root = .ok root := by
  induction l using List.reverseRecOn generalizing root with
  | nil =>
    obtain rfl := Except.ok.inj h
    exact h
  | append_singleton l n ih =>
    rcases settle_snoc_cases h with hreal | ⟨f, up, hloop, hf, hup, rfl⟩
    · exact settle_of_real (real_of_solid (solid_of_real hreal))
    · rw [real_append_of_settle hup [n]] at hf
      rw [settle_snoc, hf, ih hup]
      cases f with
      | missing | notDirectory => rfl
      | loop => exact absurd rfl hloop

/-- Going on from a location is settled as going on from where the location is settled. -/
theorem settle_append_of_settle {l root : Location} (h : t.settle l = .ok root) (way : Location) :
    t.settle (l ++ way) = t.settle (root ++ way) := by
  induction way using List.reverseRecOn with
  | nil => rw [List.append_nil, List.append_nil, h, settle_of_settle h]
  | append_singleton way n ih =>
    rw [← List.append_assoc, ← List.append_assoc, settle_snoc, settle_snoc, ih, List.append_assoc,
      List.append_assoc, real_append_of_settle h]

/-- What is settled below a directory has the names below the directory after those of the real
place of the directory, if none of them is that of a link. -/
theorem settle_append {l root way : Location} (hroot : t.settle l = .ok root)
    (hlinks : t.NoLinks root way) : t.settle (l ++ way) = .ok (root ++ way) := by
  obtain ⟨follow, happend⟩ := exists_real_append t
  have hcases {front : Location} (hfront : front <+: way) :
      t.real (l ++ front) = .ok (root ++ front) ∨ t.real (l ++ front) = .error .missing ∨
        t.real (l ++ front) = .error .notDirectory := by
    rw [happend]
    cases hreal : t.real l with
    | ok r =>
      obtain rfl := Except.ok.inj ((settle_of_real hreal).symm.trans hroot)
      exact realFrom_of_noLinks (hlinks.of_prefix hfront)
    | error f =>
      cases f with
      | missing => exact Or.inr (Or.inl rfl)
      | notDirectory => exact Or.inr (Or.inr rfl)
      | loop => exact nomatch (settle_of_loop hreal).symm.trans hroot
  clear hlinks
  induction way using List.reverseRecOn with
  | nil => rw [List.append_nil, List.append_nil, hroot]
  | append_singleton way n ih =>
    have hway := ih fun hfront => hcases (hfront.trans (List.prefix_append way [n]))
    have hfull := hcases (List.prefix_refl (way ++ [n]))
    rw [← List.append_assoc, ← List.append_assoc] at hfull ⊢
    rcases hfull with h | h | h
    · exact settle_of_real h
    · rw [settle_of_missing (Or.inl h), hway]
      rfl
    · rw [settle_of_missing (Or.inr h), hway]
      rfl

end FileTree

end CaseFiles
