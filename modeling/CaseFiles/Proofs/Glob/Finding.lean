import CaseFiles.Glob.Walk
import CaseFiles.Proofs.Distinct
import CaseFiles.Proofs.FileTree.LinkFree
import CaseFiles.Proofs.Glob.NormalForm

/-!
# What a glob finds

In a tree without links a glob whose literal segments are plain names finds exactly the files whose
names fit its segments one after the other. Main statements: `mem_walk_iff`, and for the paths of
the files below a directory `mem_search_iff`.
-/

namespace CaseFiles

namespace Glob

open FileTree

open CaseFiles.Path (Plain)

/-- The names fit the segments one after the other. A globstar takes any names without a leading
dot; looking through a directory for a closing globstar, it takes at least one. -/
inductive Fits : Bool → List Segment → List Text → Prop
  | stars {listing : Bool} {ns : List Text} (hidden : ∀ n ∈ ns, isHidden n = false)
      (ne : listing = true → ns ≠ []) : Fits listing [.globstar] ns
  | across {listing : Bool} {rest : List Segment} {a b : List Text} (ne : rest ≠ [])
      (hidden : ∀ n ∈ a, isHidden n = false) (fits : Fits true rest b) :
      Fits listing (.globstar :: rest) (a ++ b)
  | last {listing : Bool} {s : Segment} {n : Text} (test : s.test n = true) :
      Fits listing [s] [n]
  | step {listing : Bool} {s : Segment} {rest : List Segment} {n : Text} {ns : List Text}
      (test : s.test n = true) (ne : ns ≠ []) (fits : Fits false rest ns) :
      Fits listing (s :: rest) (n :: ns)
  /-- A name that is gone to without looking may be that of a file, which a closing globstar
  finds. -/
  | landing (n : Text) : Fits false [.literal n, .globstar] [n]

theorem not_fits_nil {listing : Bool} {ns : List Text} : ¬ Fits listing [] ns := by
  intro h
  cases h

/-- Looking through a directory finds something below it. -/
theorem Fits.ne_nil {listing : Bool} {segments : List Segment} {ns : List Text}
    (h : Fits listing segments ns) (hlisting : listing = true) : ns ≠ [] := by
  induction h with
  | stars _ ne => exact ne hlisting
  | across _ _ _ ih => exact List.append_ne_nil_of_right_ne_nil _ (ih rfl)
  | last | step | landing => exact List.cons_ne_nil _ _

/-- Each segment but a globstar takes one of the names. -/
theorem Fits.exists_test {listing : Bool} {segments : List Segment} {ns : List Text}
    (h : Fits listing segments ns) {s : Segment} (hs : s ∈ segments) (hstars : s ≠ .globstar) :
    ∃ n ∈ ns, s.test n = true := by
  induction h with
  | stars _ _ => exact absurd (List.mem_singleton.mp hs) hstars
  | across _ _ _ ih =>
    obtain ⟨n, hn, htest⟩ := ih ((List.mem_cons.mp hs).resolve_left hstars)
    exact ⟨n, List.mem_append_right _ hn, htest⟩
  | @last _ _ n test =>
    rw [List.mem_singleton.mp hs]
    exact ⟨n, List.mem_cons_self, test⟩
  | @step _ _ _ n _ test _ _ ih =>
    rcases List.mem_cons.mp hs with rfl | hs
    · exact ⟨n, List.mem_cons_self, test⟩
    · obtain ⟨m, hm, htest⟩ := ih hs
      exact ⟨m, List.mem_cons_of_mem n hm, htest⟩
  | landing n =>
    rcases List.mem_cons.mp hs with rfl | hs
    · exact ⟨n, List.mem_cons_self, by simp [Segment.test]⟩
    · exact absurd (List.mem_singleton.mp hs) hstars

/-- Only a closing globstar takes nothing. -/
theorem Fits.eq_of_nil {segments : List Segment} {ns : List Text} (h : Fits false segments ns)
    (hns : ns = []) : segments = [.globstar] := by
  cases h with
  | stars _ _ => rfl
  | across _ _ fits => exact absurd (List.append_eq_nil_iff.mp hns).2 (fits.ne_nil rfl)
  | last _ | step _ _ _ | landing _ => exact absurd hns (List.cons_ne_nil _ _)

/-- A closing globstar takes names without a leading dot. -/
theorem fits_closing_iff {listing : Bool} {ns : List Text} :
    Fits listing [.globstar] ns ↔
      (∀ n ∈ ns, isHidden n = false) ∧ (listing = true → ns ≠ []) := by
  constructor
  · intro h
    cases h with
    | stars hidden ne => exact ⟨hidden, ne⟩
    | across ne _ _ => exact absurd rfl ne
    | last test => exact nomatch test
    | step test _ _ => exact nomatch test
  · rintro ⟨hidden, ne⟩
    exact .stars hidden ne

/-- Any other globstar takes such names before those that fit what comes after it. -/
theorem fits_globstar_iff {listing : Bool} {rest : List Segment} (hne : rest ≠ [])
    {ns : List Text} :
    Fits listing (.globstar :: rest) ns ↔
      ∃ a b, ns = a ++ b ∧ (∀ n ∈ a, isHidden n = false) ∧ Fits true rest b := by
  constructor
  · intro h
    cases h with
    | stars _ _ => exact absurd rfl hne
    | across _ hidden fits => exact ⟨_, _, rfl, hidden, fits⟩
    | last test => exact nomatch test
    | step test _ _ => exact nomatch test
  · rintro ⟨a, b, rfl, hidden, fits⟩
    exact .across hne hidden fits

section

variable {t : FileTree} (ht : t.LinkFree) {l : Location} (hl : ∀ n ∈ l, Plain n)

include ht hl

theorem mem_leafAt_iff {x : Location} : x ∈ leafAt t l ↔ x = l ∧ t.at? l = some .file := by
  unfold leafAt
  constructor
  · intro h
    split at h
    · rename_i k hk
      rw [entry?_eq_ok_iff ht hl] at hk
      split at h
      · refine ⟨List.mem_singleton.mp h, ?_⟩
        cases k with
        | file => exact hk
        | dir => contradiction
        | link target => exact absurd hk (ht _ target)
      · exact nomatch h
    · exact nomatch h
  · rintro ⟨rfl, hfile⟩
    rw [(entry?_eq_ok_iff ht hl).mpr hfile]
    exact List.mem_singleton.mpr rfl

theorem linkAt_eq_false : linkAt t l = false := by
  unfold linkAt
  split
  · rename_i k hk
    rw [entry?_eq_ok_iff ht hl] at hk
    cases k with
    | file | dir => rfl
    | link target => exact absurd hk (ht _ target)
  · rfl

/-- The directories that are reached are the place itself and those below it without a leading
dot on the way. -/
theorem mem_reach_iff {x : Location} :
    x ∈ reach t l ↔ ∃ a, x = l ++ a ∧ (∀ n ∈ a, isHidden n = false) ∧
      (a ≠ [] → t.at? (l ++ a) = some .dir) := by
  unfold reach
  cases hfind : t.find l with
  | error f =>
    have hnone : t.at? l = none := by
      by_contra hat
      rw [(find_eq_ok_iff ht hl).mpr ⟨rfl, hat⟩] at hfind
      exact nomatch hfind
    simp only [List.mem_singleton]
    constructor
    · rintro rfl
      exact ⟨[], by simp, by simp, by simp⟩
    · rintro ⟨a, rfl, -, hdir⟩
      by_cases ha : a = []
      · rw [ha, List.append_nil]
      · rw [at?_dir_of_append (hdir ha) ha] at hnone
        exact nomatch hnone
  | ok r =>
    obtain ⟨rfl, -⟩ := (find_eq_ok_iff ht hl).mp hfind
    simp only [List.mem_cons, List.mem_filterMap]
    constructor
    · rintro (rfl | ⟨⟨place, k⟩, hmem, hx⟩)
      · exact ⟨[], by simp, by simp, by simp⟩
      · simp only [Option.ite_none_right_eq_some, Option.some.injEq] at hx
        obtain ⟨⟨rfl, ⟨a, rfl⟩, hne, hall⟩, rfl⟩ := hx
        rw [List.drop_left] at hne hall ⊢
        refine ⟨a, rfl, fun n hn => ?_, fun _ => t.at?_eq_some_iff.mpr (Or.inr hmem)⟩
        simpa using List.all_eq_true.mp hall n hn
    · rintro ⟨a, rfl, hhidden, hdir⟩
      by_cases ha : a = []
      · exact Or.inl (by rw [ha, List.append_nil])
      · refine Or.inr ⟨(r ++ a, .dir), ?_, ?_⟩
        · rcases t.at?_eq_some_iff.mp (hdir ha) with ⟨hnil, -⟩ | hmem
          · exact absurd (List.append_eq_nil_iff.mp hnil).2 ha
          · exact hmem
        · have hall : a.all (!isHidden ·) = true := by
            rw [List.all_eq_true]
            intro n hn
            rw [hhidden n hn]
            rfl
          simp [ha, hall]

end

section

variable {t : FileTree} (ht : t.LinkFree)

include ht

/-- What is listed is a file or a directory. -/
theorem isLink_of_mem_list {l : Location} (hl : ∀ n ∈ l, Plain n) {n : Text} {k : Entry}
    (h : (n, k) ∈ t.list l) : isLink k = false := by
  rw [list_eq ht hl, mem_children] at h
  cases k with
  | file | dir => rfl
  | link target => exact absurd h (ht _ target)

/-- The files in a directory that have no leading dot. -/
theorem mem_leaves_iff {d x : Location} (hd : ∀ n ∈ d, Plain n) :
    (x ∈ (t.list d).filterMap fun (n, k) =>
      if isLeaf k ∧ !isHidden n then some (d ++ [n]) else none) ↔
        ∃ n, isHidden n = false ∧ x = d ++ [n] ∧ t.at? x = some .file := by
  rw [list_eq ht hd, List.mem_filterMap]
  constructor
  · rintro ⟨⟨n, k⟩, hmem, hx⟩
    simp only [Option.ite_none_right_eq_some, Option.some.injEq] at hx
    obtain ⟨⟨hleaf, hhidden⟩, rfl⟩ := hx
    refine ⟨n, by simpa using hhidden, rfl, ?_⟩
    rw [mem_children] at hmem
    cases k with
    | file => exact hmem
    | dir => exact absurd hleaf (by decide)
    | link target => exact absurd hmem (ht _ target)
  · rintro ⟨n, hhidden, rfl, hfile⟩
    exact ⟨(n, .file), mem_children.mpr hfile, by simp [isLeaf, hhidden]⟩

omit ht in
/-- The names on the way to a directory below a place are plain. -/
theorem plain_below {l a : Location} (hl : ∀ n ∈ l, Plain n)
    (hdir : a ≠ [] → t.at? (l ++ a) = some .dir) : ∀ n ∈ l ++ a, Plain n := by
  by_cases ha : a = []
  · rwa [ha, List.append_nil]
  · exact plain_of_at? (hdir ha)

/-- The place of a globstar is found if it is a file and the globstar comes last. -/
theorem mem_here_iff {last : Bool} {mode : Mode} {l x : Location} (hl : ∀ n ∈ l, Plain n) :
    (x ∈ match mode with
      | .list => []
      | .enter _ => if last = true then leafAt t l else []) ↔
      last = true ∧ mode ≠ .list ∧ x = l ∧ t.at? l = some .file := by
  cases mode with
  | list => simp
  | enter first =>
    cases last with
    | true => simp [mem_leafAt_iff ht hl]
    | false => simp

/-- What a globstar takes in a directory. No link is listed, so that is the files if it comes last,
and otherwise what is found further on. -/
theorem mem_taken_iff {last : Bool} {go : Mode → Location → List Location} {mode : Mode}
    {d x : Location} (hd : ∀ n ∈ d, Plain n) :
    (x ∈ ((if last = true then
        (t.list d).filterMap fun (n, k) =>
          if isLeaf k ∧ !isHidden n then some (d ++ [n]) else none
      else go .list d) ++
      if last = true ∨ mode = .enter true then [] else
        (t.list d).flatMap fun (n, k) =>
          if isLink k ∧ !isHidden n then go (.enter false) (d ++ [n]) else []) ++ []) ↔
      if last = true then ∃ n, isHidden n = false ∧ x = d ++ [n] ∧ t.at? x = some .file
      else x ∈ go .list d := by
  have hlinked : ((t.list d).flatMap fun (n, k) =>
      if isLink k ∧ !isHidden n then go (.enter false) (d ++ [n]) else []) = [] := by
    rw [List.flatMap_eq_nil_iff]
    rintro ⟨n, k⟩ hmem
    simp [isLink_of_mem_list ht hd hmem]
  rw [hlinked, ite_self, List.append_nil, List.append_nil]
  cases last with
  | true => exact mem_leaves_iff ht hd
  | false => exact Iff.rfl

/-- What a globstar finds that is not before a segment that leads up. -/
theorem mem_star_iff {last : Bool} {go : Mode → Location → List Location} {mode : Mode}
    {l x : Location} (hl : ∀ n ∈ l, Plain n) :
    x ∈ star t last go none mode l ↔
      (last = true ∧ mode ≠ .list ∧ x = l ∧ t.at? l = some .file) ∨
        ∃ a, (∀ n ∈ a, isHidden n = false) ∧ (a ≠ [] → t.at? (l ++ a) = some .dir) ∧
          if last = true then
            ∃ n, isHidden n = false ∧ x = l ++ a ++ [n] ∧ t.at? x = some .file
          else x ∈ go .list (l ++ a) := by
  have htaken : (if mode = .enter true ∧ linkAt t l = true then [] else reach t l) = reach t l := by
    rw [linkAt_eq_false ht hl, if_neg (by simp)]
  unfold star
  simp only [htaken, Option.elim_none]
  rw [List.mem_append, List.mem_flatMap]
  apply or_congr (mem_here_iff ht hl)
  constructor
  · rintro ⟨d, hd, hx⟩
    obtain ⟨a, rfl, hhidden, hdir⟩ := (mem_reach_iff ht hl).mp hd
    exact ⟨a, hhidden, hdir, (mem_taken_iff ht (plain_below hl hdir)).mp hx⟩
  · rintro ⟨a, hhidden, hdir, hx⟩
    exact ⟨l ++ a, (mem_reach_iff ht hl).mpr ⟨a, rfl, hhidden, hdir⟩,
      (mem_taken_iff ht (plain_below hl hdir)).mpr hx⟩

/-- A step through the names in a directory. -/
theorem mem_names_iff {s : Segment} {rest : List Segment} {l x : Location}
    (hl : ∀ n ∈ l, Plain n) :
    (x ∈ (t.list l).flatMap fun (n, k) =>
      if s.test n then
        if rest.isEmpty then (if isLeaf k then [l ++ [n]] else [])
        else if mayEnter k then walk t rest (.enter false) (l ++ [n])
        else []
      else []) ↔
      ∃ n, s.test n = true ∧
        ((rest = [] ∧ x = l ++ [n] ∧ t.at? x = some .file) ∨
          (rest ≠ [] ∧ t.at? (l ++ [n]) = some .dir ∧ x ∈ walk t rest (.enter false) (l ++ [n]))) := by
  rw [list_eq ht hl, List.mem_flatMap]
  constructor
  · rintro ⟨⟨n, k⟩, hmem, hx⟩
    rw [mem_children] at hmem
    simp only at hx
    by_cases htest : s.test n = true
    · rw [if_pos htest] at hx
      refine ⟨n, htest, ?_⟩
      cases rest with
      | nil =>
        cases k with
        | file =>
          obtain rfl := List.mem_singleton.mp hx
          exact Or.inl ⟨rfl, rfl, hmem⟩
        | dir => exact nomatch hx
        | link target => exact absurd hmem (ht _ target)
      | cons u rest =>
        cases k with
        | file => exact nomatch hx
        | dir => exact Or.inr ⟨List.cons_ne_nil _ _, hmem, hx⟩
        | link target => exact absurd hmem (ht _ target)
    · rw [if_neg htest] at hx
      exact nomatch hx
  · rintro ⟨n, htest, ⟨rfl, rfl, hfile⟩ | ⟨hrest, hdir, hx⟩⟩
    · exact ⟨(n, .file), mem_children.mpr hfile, by simp [htest, isLeaf]⟩
    · refine ⟨(n, .dir), mem_children.mpr hdir, ?_⟩
      cases rest with
      | nil => exact absurd rfl hrest
      | cons u rest => simpa [htest, mayEnter] using hx

/-- A step through the names in a directory finds what fits the segment of the step and then those
after it. -/
theorem mem_names_iff_fits {s : Segment} {rest : List Segment} {listing : Bool} {l x : Location}
    (hs : s ≠ .globstar) (hlook : listing = false → ∀ m, s ≠ .literal m) (hl : ∀ n ∈ l, Plain n)
    (hrest : ∀ n, t.at? (l ++ [n]) = some .dir → (x ∈ walk t rest (.enter false) (l ++ [n]) ↔
      ∃ ns, x = l ++ [n] ++ ns ∧ t.at? x = some .file ∧ Fits false rest ns)) :
    (x ∈ (t.list l).flatMap fun (n, k) =>
      if s.test n then
        if rest.isEmpty then (if isLeaf k then [l ++ [n]] else [])
        else if mayEnter k then walk t rest (.enter false) (l ++ [n])
        else []
      else []) ↔
      ∃ ns, x = l ++ ns ∧ t.at? x = some .file ∧ Fits listing (s :: rest) ns := by
  rw [mem_names_iff ht hl]
  constructor
  · rintro ⟨n, htest, ⟨rfl, rfl, hfile⟩ | ⟨-, hdir, hx⟩⟩
    · exact ⟨[n], rfl, hfile, .last htest⟩
    · obtain ⟨ns, rfl, hfile, hfits⟩ := (hrest n hdir).mp hx
      have hne : ns ≠ [] := by
        rintro rfl
        rw [List.append_nil, hdir] at hfile
        exact nomatch hfile
      exact ⟨n :: ns, by simp, hfile, .step htest hne hfits⟩
  · rintro ⟨ns, rfl, hfile, hfits⟩
    cases hfits with
    | stars _ _ => exact absurd rfl hs
    | across _ _ _ => exact absurd rfl hs
    | landing n => exact absurd rfl (hlook rfl n)
    | @last _ _ n htest => exact ⟨n, htest, Or.inl ⟨rfl, rfl, hfile⟩⟩
    | @step _ _ _ n ns htest hne hfits =>
      have hassoc : l ++ n :: ns = l ++ [n] ++ ns := by simp
      have hdir := at?_dir_of_append (hassoc ▸ hfile) hne
      refine ⟨n, htest, Or.inr ⟨?_, hdir, (hrest n hdir).mpr ⟨ns, hassoc, hfile, hfits⟩⟩⟩
      rintro rfl
      exact not_fits_nil hfits

omit ht in
/-- A globstar looks further up before a segment that leads up. -/
theorem exists_up_of_globstar (rest : List Segment) (mode : Mode) (l : Location) :
    ∃ up, walk t (.globstar :: rest) mode l = star t rest.isEmpty (walk t rest) up mode l ∧
      ∀ look ∈ up, ∃ more, rest = .literal Path.dotDot :: more ∧ look = walk t more .list := by
  rw [walk.eq_def]
  cases rest with
  | nil => exact ⟨none, rfl, by simp⟩
  | cons s rest =>
    cases s with
    | literal m =>
      by_cases hup : m = Path.dotDot
      · subst hup
        exact ⟨some (walk t rest .list), by simp, by simp⟩
      · exact ⟨none, by simp only [if_neg hup], by simp⟩
    | globstar | ending | wild => exact ⟨none, rfl, by simp⟩

omit ht in
/-- Before any other segment it does not. -/
theorem walk_globstar {rest : List Segment} (hrest : ∀ m, .literal m ∈ rest → m ≠ Path.dotDot)
    {mode : Mode} {l : Location} :
    walk t (.globstar :: rest) mode l = star t rest.isEmpty (walk t rest) none mode l := by
  obtain ⟨up, hwalk, hup⟩ := exists_up_of_globstar (t := t) rest mode l
  cases up with
  | none => exact hwalk
  | some look =>
    obtain ⟨more, rfl, -⟩ := hup look rfl
    exact absurd rfl (hrest Path.dotDot List.mem_cons_self)

/-- A closing globstar finds what it takes. -/
theorem mem_walk_closing {mode : Mode} {listing : Bool} (hmode : listing = true ↔ mode = .list)
    {l x : Location} (hl : ∀ n ∈ l, Plain n) :
    x ∈ walk t [.globstar] mode l ↔
      ∃ ns, x = l ++ ns ∧ t.at? x = some .file ∧ Fits listing [.globstar] ns := by
  rw [walk_globstar fun _ h => absurd h List.not_mem_nil, mem_star_iff ht hl]
  simp only [List.isEmpty_nil, if_true, true_and, fits_closing_iff]
  constructor
  · rintro (⟨hlist, rfl, hfile⟩ | ⟨a, hhidden, -, n, hn, rfl, hfile⟩)
    · exact ⟨[], by simp, hfile, fun n hn => (nomatch hn), fun h => absurd (hmode.mp h) hlist⟩
    · refine ⟨a ++ [n], by simp, hfile, fun m hm => ?_, fun _ => by simp⟩
      rcases List.mem_append.mp hm with hm | hm
      · exact hhidden m hm
      · rwa [List.mem_singleton.mp hm]
  · rintro ⟨ns, rfl, hfile, hhidden, hne⟩
    by_cases hns : ns = []
    · refine Or.inl ⟨fun hlist => hne (hmode.mpr hlist) hns, by simp [hns], ?_⟩
      rwa [hns, List.append_nil] at hfile
    · obtain ⟨a, n, rfl⟩ : ∃ a n, ns = a ++ [n] :=
        ⟨ns.dropLast, ns.getLast hns, (List.dropLast_concat_getLast hns).symm⟩
      refine Or.inr ⟨a, fun m hm => hhidden m (List.mem_append_left [n] hm), fun _ => ?_, n,
        hhidden n (List.mem_append_right a List.mem_cons_self), by simp, hfile⟩
      rw [← List.append_assoc] at hfile
      exact t.at?_dir_of_child hfile

/-- A globstar and what comes after it find what fits them. -/
theorem mem_walk_globstar {rest : List Segment} (hne : rest ≠ [])
    (hrest : ∀ m, .literal m ∈ rest → Plain m) {mode : Mode} {listing : Bool} {l x : Location}
    (hl : ∀ n ∈ l, Plain n)
    (ih : ∀ l, (∀ n ∈ l, Plain n) → (x ∈ walk t rest .list l ↔
      ∃ ns, x = l ++ ns ∧ t.at? x = some .file ∧ Fits true rest ns)) :
    x ∈ walk t (.globstar :: rest) mode l ↔
      ∃ ns, x = l ++ ns ∧ t.at? x = some .file ∧ Fits listing (.globstar :: rest) ns := by
  have hempty : rest.isEmpty = false := by simpa using hne
  rw [walk_globstar fun m hm => (hrest m hm).2.2, mem_star_iff ht hl]
  simp only [hempty, Bool.false_eq_true, if_false, false_and, false_or, fits_globstar_iff hne]
  constructor
  · rintro ⟨a, hhidden, hdir, hx⟩
    obtain ⟨b, rfl, hfile, hfits⟩ := (ih _ (plain_below hl hdir)).mp hx
    exact ⟨a ++ b, by simp, hfile, a, b, rfl, hhidden, hfits⟩
  · rintro ⟨ns, rfl, hfile, a, b, rfl, hhidden, hfits⟩
    have hassoc : l ++ (a ++ b) = l ++ a ++ b := (List.append_assoc l a b).symm
    have hdir := at?_dir_of_append (hassoc ▸ hfile) (hfits.ne_nil rfl)
    exact ⟨a, hhidden, fun _ => hdir, (ih _ (plain_of_at? hdir)).mpr ⟨b, hassoc, hfile, hfits⟩⟩

/-- Going on by a name and what comes after it find what fits them. -/
theorem mem_walk_literal {m : Text} {rest : List Segment} {first : Bool} {l x : Location}
    (hm : Plain m) (hplain : ∀ n ∈ l ++ [m], Plain n)
    (ih : x ∈ walk t rest (.enter false) (l ++ [m]) ↔
      ∃ ns, x = l ++ [m] ++ ns ∧ t.at? x = some .file ∧ Fits false rest ns) :
    x ∈ walk t (.literal m :: rest) (.enter first) l ↔
      ∃ ns, x = l ++ ns ∧ t.at? x = some .file ∧ Fits false (.literal m :: rest) ns := by
  have htest {n : Text} (h : (Segment.literal m).test n = true) : m = n := by
    simpa [Segment.test] using h
  have hself : (Segment.literal m).test m = true := by simp [Segment.test]
  obtain ⟨hne, hdot, hup⟩ := hm
  by_cases hnil : rest = []
  · subst hnil
    have hwalk : walk t [.literal m] (.enter first) l = leafAt t (l ++ [m]) := by
      rw [walk, List.isEmpty_nil, if_pos rfl, if_pos (by simp [isPlain, hne, hdot, hup])]
    rw [hwalk, mem_leafAt_iff ht hplain]
    constructor
    · rintro ⟨rfl, hfile⟩
      exact ⟨[m], rfl, hfile, .last hself⟩
    · rintro ⟨ns, rfl, hfile, hfits⟩
      cases hfits with
      | last h =>
        obtain rfl := htest h
        exact ⟨rfl, hfile⟩
      | step _ _ hfits => exact absurd hfits not_fits_nil
  · have hwalk : walk t (.literal m :: rest) (.enter first) l =
        walk t rest (.enter false) (l ++ [m]) := by
      rw [walk, if_neg (by simpa using hnil), stepTo, if_neg (not_or.mpr ⟨hne, hdot⟩), if_neg hup]
    rw [hwalk, ih]
    constructor
    · rintro ⟨ns, rfl, hfile, hfits⟩
      refine ⟨m :: ns, by simp, hfile, ?_⟩
      by_cases hns : ns = []
      · rw [hfits.eq_of_nil hns, hns]
        exact .landing m
      · exact .step hself hns hfits
    · rintro ⟨ns, rfl, hfile, hfits⟩
      cases hfits with
      | last _ => exact absurd rfl hnil
      | @step _ _ _ n ns h _ hfits =>
        obtain rfl := htest h
        exact ⟨ns, by simp, hfile, hfits⟩
      | landing => exact ⟨[], by simp, hfile, .stars (by simp) (by simp)⟩

/-- A glob finds the files whose names fit its segments. -/
theorem mem_walk_iff {segments : List Segment} (hsegments : ∀ m, .literal m ∈ segments → Plain m)
    {mode : Mode} {l x : Location} (hl : ∀ n ∈ l, Plain n) :
    x ∈ walk t segments mode l ↔
      ∃ ns, x = l ++ ns ∧ t.at? x = some .file ∧ Fits (mode == .list) segments ns := by
  induction segments generalizing mode l with
  | nil =>
    rw [walk]
    refine ⟨fun h => (nomatch h), ?_⟩
    rintro ⟨ns, -, -, hfits⟩
    exact absurd hfits not_fits_nil
  | cons s rest ih =>
    have hliterals m (hm : .literal m ∈ rest) := hsegments m (List.mem_cons_of_mem s hm)
    have hnames (n : Text) (hdir : t.at? (l ++ [n]) = some .dir) :
        x ∈ walk t rest (.enter false) (l ++ [n]) ↔
          ∃ ns, x = l ++ [n] ++ ns ∧ t.at? x = some .file ∧ Fits false rest ns :=
      ih hliterals (plain_of_at? hdir)
    cases s with
    | globstar =>
      by_cases hrest : rest = []
      · rw [hrest]
        exact mem_walk_closing ht (by simp) hl
      · exact mem_walk_globstar ht hrest hliterals hl fun _ ha => ih hliterals ha
    | literal m =>
      have hm : Plain m := hsegments m List.mem_cons_self
      cases mode with
      | list => exact mem_names_iff_fits ht (by simp) (fun h => nomatch h) hl hnames
      | enter first =>
        have hplain : ∀ n ∈ l ++ [m], Plain n := by
          intro n hn
          rcases List.mem_append.mp hn with hn | hn
          · exact hl n hn
          · rwa [List.mem_singleton.mp hn]
        exact mem_walk_literal ht hm hplain (ih hliterals hplain)
    | ending tail =>
      cases mode <;> exact mem_names_iff_fits ht (by simp) (fun _ _ => by simp) hl hnames
    | wild ps =>
      cases mode <;> exact mem_names_iff_fits ht (by simp) (fun _ _ => by simp) hl hnames

omit ht in
theorem shared_append (directory way : Location) :
    shared directory (directory ++ way) = directory.length := by
  induction directory with
  | nil => rfl
  | cons n ns ih => rw [List.cons_append, shared, if_pos rfl, ih, List.length_cons]

omit ht in
/-- What is below a directory is seen from it by its way. -/
theorem relative_append {directory way : Location} (hway : way ≠ []) :
    relative directory (directory ++ way) = Path.joinSlash way := by
  have hbelow : ¬ (directory.length = 0 ∧ directory ≠ []) := by
    rintro ⟨hlength, hne⟩
    exact hne (List.length_eq_zero_iff.mp hlength)
  have hempty : ¬ way.isEmpty = true := by simpa using hway
  rw [relative, shared_append]
  simp only [if_neg hbelow, Nat.sub_self, List.replicate_zero, List.nil_append, List.drop_left,
    if_neg hempty]

omit ht in
/-- A directory is seen from itself as where one is. -/
theorem relative_self (directory : Location) : relative directory directory = Path.dot := by
  have hshared := shared_append directory []
  have hbelow : ¬ (directory.length = 0 ∧ directory ≠ []) := by
    rintro ⟨hlength, hne⟩
    exact hne (List.length_eq_zero_iff.mp hlength)
  rw [List.append_nil] at hshared
  rw [relative, hshared]
  simp only [if_neg hbelow, Nat.sub_self, List.replicate_zero, List.nil_append, List.drop_length,
    List.isEmpty_nil, if_true]

omit ht in
/-- No path is found twice. -/
theorem nodup_search (directory : Location) (g : Text) : (search t directory g).Nodup :=
  (List.mergeSort_perm _ _).nodup_iff.mpr (nodup_eraseDups _)

omit ht in
/-- What a glob of plain parts finds is a place that its segments lead to, seen from the
directory. -/
theorem exists_walk_of_mem_search {directory : Location} {g : Text}
    (hg : ∀ p ∈ Path.splitSlash g, Plain p) {p : Text} (h : p ∈ search t directory g) :
    ∃ x ∈ walk t ((collapse (Path.splitSlash g)).map Segment.ofText) (.enter true) directory,
      p = relative directory x := by
  rw [search, patterns_of_plain hg, List.mem_mergeSort, List.mem_eraseDups] at h
  simp only [List.flatMap_cons, List.flatMap_nil, List.append_nil, find, Bool.false_eq_true,
    if_false, List.mem_map] at h
  obtain ⟨x, hx, rfl⟩ := h
  split at hx
  · cases hx
  · cases hx
  · exact ⟨x, hx, rfl⟩

/-- What a glob finds is a file at some names from the directory on, if the directory is one. -/
theorem exists_of_mem_search {directory : Location} (hplain : ∀ n ∈ directory, Plain n) {g : Text}
    (hg : ∀ p ∈ Path.splitSlash g, Plain p)
    (hliterals : ∀ m, .literal m ∈ (collapse (Path.splitSlash g)).map Segment.ofText → Plain m)
    {p : Text} (h : p ∈ search t directory g) :
    ∃ ns, p = relative directory (directory ++ ns) ∧ t.at? (directory ++ ns) = some .file := by
  obtain ⟨x, hx, rfl⟩ := exists_walk_of_mem_search hg h
  obtain ⟨ns, rfl, hfile, -⟩ := (mem_walk_iff ht hliterals hplain).mp hx
  exact ⟨ns, rfl, hfile⟩

/-- A glob finds the paths of the files below a directory whose names fit its segments. -/
theorem mem_search_iff {directory : Location} (hdir : t.at? directory = some .dir) {g : Text}
    (hg : ∀ p ∈ Path.splitSlash g, Plain p)
    (hliterals : ∀ m, .literal m ∈ (collapse (Path.splitSlash g)).map Segment.ofText → Plain m)
    {p : Text} :
    p ∈ search t directory g ↔ ∃ ns, p = Path.joinSlash ns ∧
      t.at? (directory ++ ns) = some .file ∧
        Fits false ((collapse (Path.splitSlash g)).map .ofText) ns := by
  have hplain := plain_of_at? hdir
  have hentry : t.entry? directory = .ok .dir := (entry?_eq_ok_iff ht hplain).mpr hdir
  rw [search, patterns_of_plain hg, List.mem_mergeSort, List.mem_eraseDups]
  simp only [List.flatMap_cons, List.flatMap_nil, List.append_nil, find, hentry, Bool.false_eq_true,
    if_false, List.mem_map, mem_walk_iff ht hliterals hplain]
  constructor
  · rintro ⟨_, ⟨ns, rfl, hfile, hfits⟩, rfl⟩
    refine ⟨ns, relative_append ?_, hfile, hfits⟩
    rintro rfl
    rw [List.append_nil, hdir] at hfile
    exact nomatch hfile
  · rintro ⟨ns, rfl, hfile, hfits⟩
    refine ⟨directory ++ ns, ⟨ns, rfl, hfile, hfits⟩, relative_append ?_⟩
    rintro rfl
    rw [List.append_nil, hdir] at hfile
    exact nomatch hfile

end

end Glob

end CaseFiles
