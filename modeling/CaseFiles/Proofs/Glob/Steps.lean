import CaseFiles.Proofs.FileTree.Walking
import CaseFiles.Proofs.Glob.Finding

/-!
# What one step of a glob finds

A step through the names in a directory and a globstar, each in a tree with links. Main statements:
`mem_through`, `mem_star`.
-/

namespace CaseFiles

namespace Glob

open CaseFiles.Path (Plain isName)

variable {t : FileTree} {l x : Location}

theorem isPlain_iff {m : Text} : isPlain m = true ↔ Plain m := by
  simp [isPlain, Plain, and_assoc]

theorem stepTo_plain {m : Text} (h : Plain m) : stepTo l m = l ++ [m] := by
  rw [stepTo, if_neg (not_or.mpr ⟨h.1, h.2.1⟩), if_neg h.2.2]

/-- What is listed has names of the tree. -/
theorem isName_of_mem_list {n : Text} {k : Entry} (h : (n, k) ∈ t.list l) : isName n = true := by
  obtain ⟨r, -, -, hat⟩ := FileTree.exists_of_mem_list h
  exact t.isName_of_at? hat (List.mem_append_right r List.mem_cons_self)

/-- So have the directories that a globstar takes. -/
theorem exists_way_of_mem_reach (h : x ∈ reach t l) :
    ∃ way, x = l ++ way ∧ ∀ n ∈ way, isName n = true := by
  unfold reach at h
  split at h
  · exact ⟨[], by simpa using h, List.forall_mem_nil _⟩
  · rcases List.mem_cons.mp h with rfl | h
    · exact ⟨[], (List.append_nil x).symm, List.forall_mem_nil _⟩
    · obtain ⟨⟨place, k⟩, hplace, hx⟩ := List.mem_filterMap.mp h
      simp only [Option.ite_none_right_eq_some, Option.some.injEq] at hx
      obtain ⟨-, rfl⟩ := hx
      exact ⟨_, rfl, fun n hn => t.named _ hplace n (List.mem_of_mem_drop hn)⟩

/-- Something other than a directory is at a place. -/
def Leaf (t : FileTree) (x : Location) : Prop := ∃ k, t.entry? x = .ok k ∧ isLeaf k = true

theorem mem_leafAt : x ∈ leafAt t l ↔ x = l ∧ Leaf t l := by
  unfold leafAt Leaf
  cases t.entry? l with
  | error f => simp
  | ok k => cases hk : isLeaf k <;> simp [hk]

/-- What a step through the names in a directory finds. -/
def through (t : FileTree) (s : Segment) (rest : List Segment) (l : Location) : List Location :=
  (t.list l).flatMap fun (n, k) =>
    if s.test n then
      if rest.isEmpty then (if isLeaf k then [l ++ [n]] else [])
      else if mayEnter k then walk t rest (.enter false) (l ++ [n])
      else []
    else []

theorem mem_through {s : Segment} {rest : List Segment} :
    x ∈ through t s rest l ↔
      ∃ n k, (n, k) ∈ t.list l ∧ s.test n = true ∧
        ((rest = [] ∧ isLeaf k = true ∧ x = l ++ [n]) ∨
          (rest ≠ [] ∧ mayEnter k = true ∧ x ∈ walk t rest (.enter false) (l ++ [n]))) := by
  rw [through, List.mem_flatMap, Prod.exists]
  refine exists_congr fun n => exists_congr fun k => and_congr_right fun _ => ?_
  cases rest <;> simp

/-- The directories that a globstar takes. -/
def taken (t : FileTree) (mode : Mode) (l : Location) : List Location :=
  if mode = .enter true ∧ linkAt t l then [] else reach t l

/-- What a globstar finds: the place itself, a leaf in a directory that it takes, or what the
segments after it find there, in a link there, or further up. -/
inductive Starred (t : FileTree) (last : Bool) (go : Mode → Location → List Location)
    (up : Option (Location → List Location)) (mode : Mode) (l x : Location) : Prop
  | here (hlast : last = true) (hmode : mode ≠ .list) (hx : x ∈ leafAt t l)
  | aboveHere {look : Location → List Location} (hlast : last = false) (hmode : mode ≠ .list)
      (hup : look ∈ up) (hx : x ∈ look l.dropLast)
  | leaf {d : Location} {n : Text} {k : Entry} (hlast : last = true) (hd : d ∈ taken t mode l)
      (hn : (n, k) ∈ t.list d) (hk : isLeaf k = true) (hhidden : isHidden n = false)
      (hx : x = d ++ [n])
  | direct {d : Location} (hlast : last = false) (hd : d ∈ taken t mode l) (hx : x ∈ go .list d)
  | linked {d : Location} {n : Text} {k : Entry} (hlast : last = false) (hmode : mode ≠ .enter true)
      (hd : d ∈ taken t mode l) (hn : (n, k) ∈ t.list d) (hk : isLink k = true)
      (hhidden : isHidden n = false) (hx : x ∈ go (.enter false) (d ++ [n]))
  | above {look : Location → List Location} {d : Location} (hd : d ∈ taken t mode l) (hup : look ∈ up)
      (hne : d ≠ l) (hx : x ∈ look d.dropLast)
  | around {look : Location → List Location} {d : Location} (hd : d ∈ taken t mode l)
      (hup : look ∈ up) (hnames : t.list d ≠ []) (hx : x ∈ go (.enter false) d)

section

variable {last : Bool} {go : Mode → Location → List Location}
  {up : Option (Location → List Location)} {mode : Mode}

theorem starred_of_mem_star (h : x ∈ star t last go up mode l) : Starred t last go up mode l x := by
  unfold star at h
  simp only [List.mem_append, List.mem_flatMap] at h
  rcases h with h | ⟨d, hd, (h | h) | h⟩
  · cases mode with
    | list => cases h
    | enter first =>
      cases last with
      | true => exact .here rfl (by simp) h
      | false =>
        cases up with
        | none => cases h
        | some look => exact .aboveHere rfl (by simp) rfl h
  · cases last with
    | true =>
      obtain ⟨⟨n, k⟩, hn, hx⟩ := List.mem_filterMap.mp h
      simp only [Option.ite_none_right_eq_some, Option.some.injEq] at hx
      obtain ⟨⟨hk, hhidden⟩, rfl⟩ := hx
      exact .leaf rfl hd hn hk (by simpa using hhidden) rfl
    | false => exact .direct rfl hd h
  · split at h
    · cases h
    · rename_i hlinked
      rw [not_or, Bool.not_eq_true] at hlinked
      obtain ⟨⟨n, k⟩, hn, hx⟩ := List.mem_flatMap.mp h
      simp only [List.mem_ite_nil_right] at hx
      obtain ⟨⟨hk, hhidden⟩, hx⟩ := hx
      exact .linked hlinked.1 hlinked.2 hd hn hk (by simpa using hhidden) hx
  · cases up with
    | none => cases h
    | some look =>
      rcases List.mem_append.mp h with h | h
      · split at h
        · cases h
        · rename_i hne
          exact .above hd rfl hne h
      · split at h
        · cases h
        · rename_i hnames
          exact .around hd rfl (by simpa using hnames) h

theorem mem_star_of_starred (h : Starred t last go up mode l x) : x ∈ star t last go up mode l := by
  unfold star
  simp only [List.mem_append, List.mem_flatMap]
  cases h with
  | here hlast hmode hx =>
    subst hlast
    cases mode with
    | list => exact absurd rfl hmode
    | enter first => exact Or.inl hx
  | aboveHere hlast hmode hup hx =>
    subst hlast
    obtain rfl := Option.mem_def.mp hup
    cases mode with
    | list => exact absurd rfl hmode
    | enter first => exact Or.inl hx
  | @leaf d n k hlast hd hn hk hhidden hx =>
    subst hlast
    refine Or.inr ⟨d, hd, Or.inl (Or.inl (List.mem_filterMap.mpr ⟨(n, k), hn, ?_⟩))⟩
    simp [hk, hhidden, hx]
  | @direct d hlast hd hx =>
    subst hlast
    exact Or.inr ⟨d, hd, Or.inl (Or.inl hx)⟩
  | @linked d n k hlast hmode hd hn hk hhidden hx =>
    subst hlast
    refine Or.inr ⟨d, hd, Or.inl (Or.inr ?_)⟩
    rw [if_neg (by simpa using hmode)]
    exact List.mem_flatMap.mpr ⟨(n, k), hn, by simpa [hk, hhidden] using hx⟩
  | @above look d hd hup hne hx =>
    obtain rfl := Option.mem_def.mp hup
    refine Or.inr ⟨d, hd, Or.inr (List.mem_append_left _ ?_)⟩
    rwa [if_neg hne]
  | @around look d hd hup hnames hx =>
    obtain rfl := Option.mem_def.mp hup
    refine Or.inr ⟨d, hd, Or.inr (List.mem_append_right _ ?_)⟩
    rwa [if_neg (by simpa using hnames)]

theorem mem_star : x ∈ star t last go up mode l ↔ Starred t last go up mode l x :=
  ⟨starred_of_mem_star, mem_star_of_starred⟩

end

end Glob

end CaseFiles
