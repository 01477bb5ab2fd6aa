import CaseFiles.Proofs.Glob.Searching

/-!
# Globs from another spelling

A place may be spelled in several ways, some of them through links. A glob that goes by names finds
the same names below each spelling, as long as the limit of links is met on the same ways, and as
long as a globstar that comes first does not find a link in one case and a directory in the other. A
glob of so many segments crosses no more links than that. Main statements: `exists_way_of_mem_walk`,
`search_respelled`.
-/

namespace CaseFiles

open CaseFiles.Path (Plain)

namespace Glob

variable {t : FileTree} {l l' x way : Location} {n : Text} {k : Nat}

/-- How many links there are on a way from a place. -/
def crossings (t : FileTree) (l : Location) : Location → Nat
  | [] => 0
  | n :: way => (linkAt t (l ++ [n])).toNat + crossings t (l ++ [n]) way

theorem crossings_append (l a b : Location) :
    crossings t l (a ++ b) = crossings t l a + crossings t (l ++ a) b := by
  induction a generalizing l with
  | nil => rw [List.nil_append, List.append_nil, crossings, Nat.zero_add]
  | cons n a ih =>
    rw [List.cons_append, crossings, crossings, ih, Nat.add_assoc, List.append_assoc,
      List.singleton_append]

/-- No link is crossed on the way to a real directory. -/
theorem crossings_eq_zero {r : Location} (h : t.find l = .ok r)
    (hat : t.at? (r ++ way) = some .dir) : crossings t l way = 0 := by
  induction way generalizing l r with
  | nil => rfl
  | cons n way ih =>
    have hassoc : r ++ n :: way = r ++ [n] ++ way := by simp
    rw [hassoc] at hat
    have hdir := FileTree.at?_dir_above hat (List.prefix_append (r ++ [n]) way)
    have hn := FileTree.plain_of_at? hdir n (List.mem_append_right r List.mem_cons_self)
    have hlink : linkAt t (l ++ [n]) = false := by
      rw [linkAt, FileTree.entry?_snoc h (t.at?_dir_of_child hdir) hn, hdir]
      rfl
    rw [crossings, hlink, ih (FileTree.find_snoc_dir h hdir) hat]
    rfl

/-- A way of names that crosses up to so many links. -/
structure Within (t : FileTree) (k : Nat) (l way : Location) : Prop where
  plain : ∀ n ∈ way, Plain n
  crossings_le : crossings t l way ≤ k

/-- Two spellings meet the limit of links on the same ways, of those that cross up to so many links.
-/
def LimitedAlike (t : FileTree) (k : Nat) (l l' : Location) : Prop :=
  ∀ way, Within t k l way →
    (t.find (l ++ way) = .error .loop ↔ t.find (l' ++ way) = .error .loop)

/-- Ways that cross up to so many links lead to the same places from two spellings. -/
def Agree (t : FileTree) (k : Nat) (l l' : Location) : Prop :=
  ∀ way, Within t k l way → t.find (l ++ way) = t.find (l' ++ way)

/-- Two spellings of a directory agree unless the limit of links is met from one of them only. -/
theorem agree_of_limitedAlike {r : Location} (hl : t.find l = .ok r) (hl' : t.find l' = .ok r)
    (hr : t.at? r = some .dir) (h : LimitedAlike t k l l') : Agree t k l l' := by
  intro way hway
  rcases FileTree.find_append_eq_or_loop hl hl' hr way with heq | hloop | hloop
  · exact heq
  · rw [hloop, (h way hway).mp hloop]
  · rw [hloop, (h way hway).mpr hloop]

/-- Where there are no links below a directory the limit is not met. -/
theorem limitedAlike_of_no_links {r : Location} (hl : t.find l = .ok r) (hl' : t.find l' = .ok r)
    (hr : t.at? r = some .dir) (h : ∀ way target, t.at? (r ++ way) ≠ some (.link target)) :
    LimitedAlike t k l l' := by
  have hfind {l : Location} (hl : t.find l = .ok r) {way : Location} (hway : ∀ n ∈ way, Plain n) :
      t.find (l ++ way) ≠ .error .loop := by
    by_cases hne : way = []
    · rw [hne, List.append_nil, hl]
      simp
    · obtain ⟨left, hgo⟩ := FileTree.exists_left_of_find hl hr
      rw [ne_eq, FileTree.find_eq_loop_iff_locate, FileTree.locate, hgo true way hne]
      exact FileTree.walk_ne_loop hway h
  exact fun way hway => iff_of_false (hfind hl hway.plain) (hfind hl' hway.plain)

/-- A globstar starts from both spellings in the same way. -/
structure Alike (t : FileTree) (l l' : Location) : Prop where
  leaf : Leaf t l ↔ Leaf t l'
  link : linkAt t l = linkAt t l'

theorem linkAt_eq_true_iff : linkAt t l = true ↔ ∃ target, t.entry? l = .ok (.link target) := by
  unfold linkAt
  cases t.entry? l with
  | error f => simp
  | ok k => cases k <;> simp [isLink]

/-- What is at a name in a directory is the same from both spellings of the directory. -/
theorem alike_snoc (h : t.find l = t.find l') (hn : Plain n) : Alike t (l ++ [n]) (l' ++ [n]) := by
  have hentry {k : Entry} : t.entry? (l ++ [n]) = .ok k ↔ t.entry? (l' ++ [n]) = .ok k :=
    ⟨FileTree.entry?_snoc_of_find h hn, FileTree.entry?_snoc_of_find h.symm hn⟩
  refine ⟨exists_congr fun k => and_congr_left fun _ => hentry, ?_⟩
  rw [Bool.eq_iff_iff, linkAt_eq_true_iff, linkAt_eq_true_iff]
  exact exists_congr fun target => hentry

/-- What is found to be a directory is a directory or a link. -/
theorem leaf_iff_linkAt {r : Location} (hl : ∀ n ∈ l, Plain n) (h : t.find l = .ok r)
    (hr : t.at? r = some .dir) : Leaf t l ↔ linkAt t l = true := by
  obtain ⟨k, hk⟩ := FileTree.exists_entry?_of_find hl h
  rw [linkAt_eq_true_iff, Leaf]
  simp only [hk, Except.ok.injEq]
  cases k with
  | dir => simp [isLeaf]
  | link target => simp [isLeaf]
  | file =>
    obtain ⟨r', hr', hfile⟩ := FileTree.find_of_entry? hk (by simp)
    obtain rfl := Except.ok.inj (h.symm.trans hr')
    rw [hr] at hfile
    cases hfile

namespace Agree

theorem find_eq (h : Agree t k l l') : t.find l = t.find l' := by
  have hnil := h [] ⟨List.forall_mem_nil _, Nat.zero_le k⟩
  rwa [List.append_nil, List.append_nil] at hnil

theorem list_eq (h : Agree t k l l') : t.list l = t.list l' := by
  unfold FileTree.list
  rw [h.find_eq]

/-- A way crosses as many links from both spellings. -/
theorem crossings_eq (h : Agree t k l l') (hplain : ∀ n ∈ way, Plain n)
    (hway : crossings t l way ≤ k ∨ crossings t l' way ≤ k) :
    crossings t l way = crossings t l' way := by
  induction way using List.reverseRecOn with
  | nil => rfl
  | append_singleton way n ih =>
    rw [crossings_append, crossings_append] at hway ⊢
    have hfront := ih (fun m hm => hplain m (List.mem_append_left [n] hm))
      (hway.imp (Nat.le_trans (Nat.le_add_right _ _)) (Nat.le_trans (Nat.le_add_right _ _)))
    have hwithin : Within t k l way := by
      refine ⟨fun m hm => hplain m (List.mem_append_left [n] hm), ?_⟩
      rcases hway with hle | hle <;> omega
    have hlast := (alike_snoc (h way hwithin)
      (hplain n (List.mem_append_right way List.mem_cons_self))).link
    rw [hfront, crossings, crossings, hlast]
    rfl

theorem symm (h : Agree t k l l') : Agree t k l' l := by
  intro way hway
  have heq := h.crossings_eq hway.plain (Or.inr hway.crossings_le)
  exact (h way ⟨hway.plain, heq ▸ hway.crossings_le⟩).symm

/-- A name crosses one link at most. -/
theorem step (h : Agree t (k + 1) l l') (hn : Plain n) : Agree t k (l ++ [n]) (l' ++ [n]) := by
  intro way hway
  rw [List.append_assoc, List.append_assoc]
  refine h ([n] ++ way) ⟨?_, ?_⟩
  · exact List.forall_mem_append.mpr ⟨List.forall_mem_singleton.mpr hn, hway.plain⟩
  · have hone := Bool.toNat_le (linkAt t (l ++ [n]))
    have hrest := hway.crossings_le
    rw [List.singleton_append, crossings]
    omega

/-- The way to a real directory crosses none. -/
theorem along (h : Agree t (k + 1) l l') (hplain : ∀ n ∈ way, Plain n)
    (hway : crossings t l way = 0) : Agree t (k + 1) (l ++ way) (l' ++ way) := by
  intro more hmore
  rw [List.append_assoc, List.append_assoc]
  refine h (way ++ more) ⟨List.forall_mem_append.mpr ⟨hplain, hmore.plain⟩, ?_⟩
  rw [crossings_append, hway, Nat.zero_add]
  exact hmore.crossings_le

theorem of_le {k' : Nat} (h : Agree t k l l') (hle : k' ≤ k) : Agree t k' l l' :=
  fun way hway => h way ⟨hway.plain, Nat.le_trans hway.crossings_le hle⟩

end Agree

/-- A globstar takes the same directories. -/
theorem exists_way_of_mem_taken {mode : Mode} (h : t.find l = t.find l')
    (hlink : mode = .enter true → linkAt t l = linkAt t l') (hx : x ∈ taken t mode l) :
    ∃ way, x = l ++ way ∧ (∀ n ∈ way, Plain n) ∧ crossings t l way = 0 ∧
      l' ++ way ∈ taken t mode l' := by
  have hsame : (mode = .enter true ∧ linkAt t l) ↔ (mode = .enter true ∧ linkAt t l') :=
    and_congr_right fun hmode => by rw [hlink hmode]
  unfold taken at hx ⊢
  split at hx
  next => cases hx
  next hopen =>
    rw [if_neg (hsame.not.mp hopen)]
    unfold reach at hx ⊢
    rw [← h]
    cases hfind : t.find l with
    | error f =>
      rw [hfind] at hx
      obtain rfl := List.mem_singleton.mp hx
      exact ⟨[], by simp, List.forall_mem_nil _, rfl, by simp⟩
    | ok r =>
      rw [hfind] at hx
      rcases List.mem_cons.mp hx with rfl | hx
      · exact ⟨[], by simp, List.forall_mem_nil _, rfl, by simp⟩
      · obtain ⟨⟨place, k⟩, hplace, hx⟩ := List.mem_filterMap.mp hx
        simp only [Option.ite_none_right_eq_some, Option.some.injEq] at hx
        obtain ⟨⟨rfl, ⟨way, rfl⟩, hne, hhidden⟩, rfl⟩ := hx
        rw [List.drop_left] at hne hhidden ⊢
        have hat := (t.at?_eq_some_iff).mpr (Or.inr hplace)
        refine ⟨way, rfl, fun n hn => ?_, crossings_eq_zero hfind hat, ?_⟩
        · exact FileTree.plain_of_at? hat n (List.mem_append_right r hn)
        · refine List.mem_cons_of_mem _ (List.mem_filterMap.mpr ⟨_, hplace, ?_⟩)
          simp [hne, hhidden]

/-- A step through the names in a directory finds the same names. -/
theorem Agree.through {s : Segment} {rest : List Segment} (h : Agree t (k + 1) l l')
    (henter : ∀ {l l'}, Agree t k l l' → Alike t l l' → x ∈ walk t rest (.enter false) l →
      ∃ way, x = l ++ way ∧ l' ++ way ∈ walk t rest (.enter false) l')
    (hx : x ∈ Glob.through t s rest l) :
    ∃ way, x = l ++ way ∧ l' ++ way ∈ Glob.through t s rest l' := by
  obtain ⟨n, e, hmem, htest, hx⟩ := mem_through.mp hx
  have hn := (telling_of_isName (isName_of_mem_list hmem)).1
  rw [h.list_eq] at hmem
  rcases hx with ⟨hrest, hleaf, rfl⟩ | ⟨hrest, hmay, hx⟩
  · exact ⟨[n], rfl, mem_through.mpr ⟨n, e, hmem, htest, Or.inl ⟨hrest, hleaf, rfl⟩⟩⟩
  · obtain ⟨way, rfl, hway⟩ := henter (h.step hn) (alike_snoc h.find_eq hn) hx
    refine ⟨n :: way, (List.append_cons l n way).symm, mem_through.mpr ⟨n, e, hmem, htest, ?_⟩⟩
    rw [List.append_cons]
    exact Or.inr ⟨hrest, hmay, hway⟩

/-- So does a globstar, if it starts from both spellings in the same way. -/
theorem Agree.star {last : Bool} {go : Mode → Location → List Location} {mode : Mode}
    (h : Agree t (k + 1) l l') (hstart : mode ≠ .list → Alike t l l')
    (hlist : ∀ {l l'}, Agree t k l l' → x ∈ go .list l →
      ∃ way, x = l ++ way ∧ l' ++ way ∈ go .list l')
    (henter : ∀ {l l'}, Agree t k l l' → Alike t l l' → x ∈ go (.enter false) l →
      ∃ way, x = l ++ way ∧ l' ++ way ∈ go (.enter false) l')
    (hx : Starred t last go none mode l x) :
    ∃ way, x = l ++ way ∧ Starred t last go none mode l' (l' ++ way) := by
  have htaken {d : Location} (hd : d ∈ taken t mode l) :=
    exists_way_of_mem_taken h.find_eq
      (fun hmode => (hstart (by rw [hmode]; exact Mode.noConfusion)).link) hd
  cases hx with
  | here hlast hmode hx =>
    obtain ⟨rfl, hleaf⟩ := mem_leafAt.mp hx
    refine ⟨[], (List.append_nil x).symm, .here hlast hmode (mem_leafAt.mpr ⟨?_, ?_⟩)⟩
    · exact List.append_nil l'
    · exact (hstart hmode).leaf.mp hleaf
  | @leaf d n e hlast hd hn he hhidden hx =>
    obtain ⟨way, rfl, hplain, hcross, hd'⟩ := htaken hd
    rw [(h.along hplain hcross).list_eq] at hn
    refine ⟨way ++ [n], ?_, .leaf hlast hd' hn he hhidden ?_⟩
    · rw [hx, List.append_assoc]
    · rw [List.append_assoc]
  | @direct d hlast hd hx =>
    obtain ⟨way, rfl, hplain, hcross, hd'⟩ := htaken hd
    obtain ⟨more, rfl, hmore⟩ := hlist ((h.along hplain hcross).of_le (Nat.le_succ k)) hx
    refine ⟨way ++ more, List.append_assoc l way more, .direct hlast hd' ?_⟩
    rwa [← List.append_assoc]
  | @linked d n e hlast hmode hd hn he hhidden hx =>
    obtain ⟨way, rfl, hplain, hcross, hd'⟩ := htaken hd
    have halong := h.along hplain hcross
    have hname := (telling_of_isName (isName_of_mem_list hn)).1
    rw [halong.list_eq] at hn
    obtain ⟨more, rfl, hmore⟩ := henter (halong.step hname) (alike_snoc halong.find_eq hname) hx
    refine ⟨way ++ [n] ++ more, by simp, .linked hlast hmode hd' hn he hhidden ?_⟩
    rwa [← List.append_assoc, ← List.append_assoc]
  | aboveHere _ _ hup _ | above _ hup _ _ | around _ hup _ _ => cases hup

/-- A glob that goes by names finds the same names from both spellings, if they agree on ways that
cross no more links than the glob has segments. -/
theorem exists_way_of_mem_walk {segments : List Segment}
    (hsegments : ∀ m, .literal m ∈ segments → Plain m) {mode : Mode}
    (h : Agree t segments.length l l')
    (hstart : segments.head? = some .globstar → mode ≠ .list → Alike t l l')
    (hx : x ∈ walk t segments mode l) :
    ∃ way, x = l ++ way ∧ l' ++ way ∈ walk t segments mode l' := by
  induction segments generalizing mode l l' with
  | nil => cases hx
  | cons s rest ih =>
    have hrest : ∀ m, .literal m ∈ rest → Plain m :=
      fun m hm => hsegments m (List.mem_cons_of_mem s hm)
    have hlist {l l' : Location} (h : Agree t rest.length l l') (hx : x ∈ walk t rest .list l) :=
      ih hrest h (fun _ hmode => absurd rfl hmode) hx
    have henter {l l' : Location} (h : Agree t rest.length l l') (halike : Alike t l l')
        (hx : x ∈ walk t rest (.enter false) l) := ih hrest h (fun _ _ => halike) hx
    cases s with
    | globstar =>
      have hup : ∀ m, .literal m ∈ rest → m ≠ Path.dotDot := fun m hm => (hrest m hm).2.2
      rw [walk_globstar hup, mem_star] at hx
      simp only [walk_globstar hup, mem_star]
      exact Agree.star h (hstart rfl) hlist henter hx
    | literal m =>
      cases mode with
      | list => exact Agree.through h henter hx
      | enter first =>
        have hm := hsegments m List.mem_cons_self
        have hsnoc := alike_snoc h.find_eq hm
        rw [walk, stepTo_plain hm] at hx
        simp only [walk, stepTo_plain hm]
        split at hx
        next hempty =>
          rw [if_pos hempty]
          rw [if_pos (isPlain_iff.mpr hm)] at hx ⊢
          obtain ⟨rfl, hleaf⟩ := mem_leafAt.mp hx
          exact ⟨[m], rfl, mem_leafAt.mpr ⟨rfl, hsnoc.leaf.mp hleaf⟩⟩
        next hmore =>
          rw [if_neg hmore]
          obtain ⟨way, rfl, hway⟩ := henter (h.step hm) hsnoc hx
          refine ⟨m :: way, (List.append_cons l m way).symm, ?_⟩
          rwa [List.append_cons l' m way]
    | ending tail => cases mode <;> exact Agree.through h henter hx
    | wild ps => cases mode <;> exact Agree.through h henter hx

section

variable {g : Text} {p : Pattern} {r : Location} (hg : patterns g = [p])
  (habsolute : p.absolute = false) (hsegments : ∀ m, .literal m ∈ p.segments → Plain m)

include hg habsolute hsegments

theorem mem_search_respelled (hl' : ∀ n ∈ l', Plain n) (hr : t.find l' = .ok r)
    (h : Agree t p.segments.length l l') (hstart : p.segments.head? = some .globstar → Alike t l l')
    {m : Text} (hm : m ∈ search t l g) : m ∈ search t l' g := by
  obtain ⟨q, hq, x, hx, rfl⟩ := mem_search.mp hm
  rw [hg] at hq
  obtain rfl := List.mem_singleton.mp hq
  have hwalk := mem_walk_of_mem_find hx
  rw [start, habsolute, if_neg (by decide)] at hwalk
  obtain ⟨way, rfl, hway⟩ := exists_way_of_mem_walk hsegments h (fun hs _ => hstart hs) hwalk
  have hfind : l' ++ way ∈ find t l' q := by
    obtain ⟨k, hk⟩ := FileTree.exists_entry?_of_find hl' hr
    rw [find, habsolute, if_neg (by decide), hk]
    exact hway
  refine mem_search.mpr ⟨q, hg ▸ List.mem_singleton_self q, l' ++ way, hfind, ?_⟩
  rw [pathOf, pathOf, if_neg (by simp [habsolute]), if_neg (by simp [habsolute])]
  by_cases hne : way = []
  · rw [hne, List.append_nil, List.append_nil, relative_self, relative_self]
  · rw [relative_append hne, relative_append hne]

/-- A search for names returns the same paths from both spellings of a directory. -/
theorem search_respelled (hl : ∀ n ∈ l, Plain n) (hl' : ∀ n ∈ l', Plain n)
    (hr : t.find l = .ok r) (hr' : t.find l' = .ok r) (hdir : t.at? r = some .dir)
    (hlimit : LimitedAlike t p.segments.length l l')
    (hlink : p.segments.head? = some .globstar → linkAt t l = linkAt t l') :
    search t l g = search t l' g := by
  have hagree := agree_of_limitedAlike hr hr' hdir hlimit
  have halike (hs : p.segments.head? = some .globstar) : Alike t l l' := by
    refine ⟨?_, hlink hs⟩
    rw [leaf_iff_linkAt hl hr hdir, leaf_iff_linkAt hl' hr' hdir, hlink hs]
  refine (increasing_search t l g).eq_of_mem_iff (increasing_search t l' g) fun m => ⟨?_, ?_⟩
  · exact mem_search_respelled hg habsolute hsegments hl' hr' hagree halike
  · exact mem_search_respelled hg habsolute hsegments hl hr hagree.symm
      fun hs => ⟨(halike hs).leaf.symm, (halike hs).link.symm⟩

end

end Glob

end CaseFiles
