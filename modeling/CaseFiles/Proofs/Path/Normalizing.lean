import CaseFiles.Backup
import Mathlib.Data.List.Induction

/-!
# Normal forms of paths

What normalising a path does not change: the place that the path names, and its last segment if
this is a name. Main statements: `locate_normalize`, and for a path below another one `locate_join`,
`isBackup_join` and `eq_splitSlash_of_locate_join`.
-/

namespace CaseFiles

namespace Path

/-- A segment that goes somewhere by a name. -/
def Plain (s : Text) : Prop := s ≠ [] ∧ s ≠ dot ∧ s ≠ dotDot

theorem isName_iff {n : Text} : isName n = true ↔ Plain n ∧ '/' ∉ n ∧ '\x00' ∉ n := by
  simp [isName, Plain, and_assoc]

/-- What is in a segment is in the text, and is no slash. -/
theorem mem_of_mem_splitSlash {t s : Text} {x : Char} (h : s ∈ splitSlash t) (hx : x ∈ s) :
    x ∈ t ∧ x ≠ '/' := by
  induction t generalizing s with
  | nil =>
    rw [List.mem_singleton.mp h] at hx
    exact nomatch hx
  | cons c t ih =>
    rw [splitSlash] at h
    by_cases hc : c = '/'
    · rw [if_pos hc] at h
      rcases List.mem_cons.mp h with rfl | h
      · exact nomatch hx
      · exact (ih h hx).imp_left (List.mem_cons_of_mem c)
    · rw [if_neg hc] at h
      cases hs : splitSlash t with
      | nil => exact absurd hs (splitSlash_ne_nil t)
      | cons p ps =>
        rw [hs] at h ih
        rcases List.mem_cons.mp h with rfl | h
        · rcases List.mem_cons.mp hx with rfl | hx
          · exact ⟨List.mem_cons_self, hc⟩
          · exact (ih List.mem_cons_self hx).imp_left (List.mem_cons_of_mem c)
        · exact (ih (List.mem_cons_of_mem p h) hx).imp_left (List.mem_cons_of_mem c)

/-- No segment has a slash in it. -/
theorem slash_not_mem_of_mem_splitSlash {t s : Text} (h : s ∈ splitSlash t) : '/' ∉ s :=
  fun hslash => (mem_of_mem_splitSlash h hslash).2 rfl

/-- Segments without slashes are read back from where they are joined. -/
theorem splitSlash_joinSlash {segments : List Text} (hne : segments ≠ [])
    (h : ∀ s ∈ segments, '/' ∉ s) : splitSlash (joinSlash segments) = segments := by
  induction segments with
  | nil => exact absurd rfl hne
  | cons s rest ih =>
    have hs := h s List.mem_cons_self
    cases rest with
    | nil => exact splitSlash_of_not_mem hs
    | cons u rest =>
      rw [joinSlash, splitSlash_append, splitSlash_of_not_mem hs,
        ih (List.cons_ne_nil u rest) fun v hv => h v (List.mem_cons_of_mem s hv)]
      rfl

/-- Joined segments are cut in two at the slash between them. -/
theorem joinSlash_append {front back : List Text} (hfront : front ≠ []) (hback : back ≠ []) :
    joinSlash (front ++ back) = joinSlash front ++ '/' :: joinSlash back := by
  induction front with
  | nil => exact absurd rfl hfront
  | cons s front ih =>
    cases front with
    | nil =>
      cases back with
      | nil => exact absurd rfl hback
      | cons u back => rfl
    | cons u front =>
      have hrest := ih (List.cons_ne_nil u front)
      rw [List.cons_append] at hrest
      rw [List.cons_append, List.cons_append, joinSlash, hrest, joinSlash, List.append_assoc,
        List.cons_append]

theorem push_plain {rooted : Bool} {stack : List Text} {s : Text} (h : Plain s) :
    push rooted stack s = s :: stack := by
  unfold push
  rw [if_neg (not_or.mpr ⟨h.1, h.2.1⟩), if_neg h.2.2]

theorem push_dotDot {rooted : Bool} {stack : List Text} {s : Text} (h : Plain s) :
    push rooted (s :: stack) dotDot = stack := by
  unfold push
  rw [if_neg (by decide), if_pos rfl]
  exact if_neg h.2.2

/-- Plain segments stay. -/
theorem foldl_push_plain {rooted : Bool} {segments : List Text} (h : ∀ s ∈ segments, Plain s)
    (stack : List Text) : segments.foldl (push rooted) stack = segments.reverse ++ stack := by
  induction segments generalizing stack with
  | nil => rfl
  | cons s rest ih =>
    rw [List.foldl_cons, push_plain (h s List.mem_cons_self),
      ih (fun u hu => h u (List.mem_cons_of_mem s hu)), List.reverse_cons, List.append_assoc]
    rfl

/-- Plain segments stay behind whatever is before them. -/
theorem reduce_append_plain (rooted : Bool) (before : List Text) {segments : List Text}
    (h : ∀ s ∈ segments, Plain s) :
    reduce rooted (before ++ segments) = reduce rooted before ++ segments := by
  rw [reduce, List.foldl_append, foldl_push_plain h, List.reverse_append, List.reverse_reverse]
  rfl

theorem reduce_plain (rooted : Bool) {segments : List Text} (h : ∀ s ∈ segments, Plain s) :
    reduce rooted segments = segments := reduce_append_plain rooted [] h

/-- What is on the stack after one more segment. -/
theorem mem_push {rooted : Bool} {stack : List Text} {s u : Text} (h : u ∈ push rooted stack s) :
    u ∈ stack ∨ (u = s ∧ Plain s) ∨ (rooted = false ∧ u = dotDot) := by
  unfold push at h
  split at h
  · exact Or.inl h
  · rename_i hstay
    rw [not_or] at hstay
    split at h
    · cases stack with
      | nil =>
        cases rooted with
        | true => exact nomatch h
        | false => exact Or.inr (Or.inr ⟨rfl, List.mem_singleton.mp h⟩)
      | cons top rest =>
        simp only at h
        split at h
        · rename_i htop
          rcases List.mem_cons.mp h with rfl | h
          · exact Or.inl (htop ▸ List.mem_cons_self)
          · exact Or.inl h
        · exact Or.inl (List.mem_cons_of_mem top h)
    · rename_i hname
      rcases List.mem_cons.mp h with rfl | h
      · exact Or.inr (Or.inl ⟨rfl, hstay.1, hstay.2, hname⟩)
      · exact Or.inl h

/-- What is on the stack after several more segments. -/
theorem mem_foldl_push {rooted : Bool} {segments stack : List Text} {u : Text}
    (h : u ∈ segments.foldl (push rooted) stack) :
    u ∈ stack ∨ (u ∈ segments ∧ Plain u) ∨ (rooted = false ∧ u = dotDot) := by
  induction segments generalizing stack with
  | nil => exact Or.inl h
  | cons s rest ih =>
    rcases ih h with hpush | ⟨hrest, hplain⟩ | hup
    · rcases mem_push hpush with hstack | ⟨rfl, hplain⟩ | hup
      · exact Or.inl hstack
      · exact Or.inr (Or.inl ⟨List.mem_cons_self, hplain⟩)
      · exact Or.inr (Or.inr hup)
    · exact Or.inr (Or.inl ⟨List.mem_cons_of_mem s hrest, hplain⟩)
    · exact Or.inr (Or.inr hup)

/-- Reduced segments are plain ones of those before, or lead up where the path does not start at
the root. -/
theorem mem_reduce {rooted : Bool} {segments : List Text} {u : Text}
    (h : u ∈ reduce rooted segments) :
    (u ∈ segments ∧ Plain u) ∨ (rooted = false ∧ u = dotDot) :=
  (mem_foldl_push (List.mem_reverse.mp h)).resolve_left List.not_mem_nil

theorem plain_of_mem_reduce {segments : List Text} {u : Text} (h : u ∈ reduce true segments) :
    u ∈ segments ∧ Plain u :=
  (mem_reduce h).resolve_right fun hup => nomatch hup.1

/-- One more segment does the same to a place as to the stack of the segments that lead there. -/
theorem foldl_push_push (stack : List Text) {below : List Text}
    (hbelow : ∀ u ∈ below, u ≠ [] ∧ u ≠ dot) (s : Text) :
    (push false below s).reverse.foldl (push true) stack =
      push true (below.reverse.foldl (push true) stack) s := by
  by_cases hstay : s = [] ∨ s = dot
  · unfold push
    rw [if_pos hstay, if_pos hstay]
  · by_cases hup : s = dotDot
    · subst hup
      cases below with
      | nil => rfl
      | cons top below =>
        by_cases htop : top = dotDot
        · subst htop
          have hpush : push false (dotDot :: below) dotDot = dotDot :: dotDot :: below := rfl
          rw [hpush, List.reverse_cons, List.foldl_append]
          rfl
        · have hplain : Plain top := ⟨(hbelow top List.mem_cons_self).1,
            (hbelow top List.mem_cons_self).2, htop⟩
          rw [push_dotDot hplain, List.reverse_cons, List.foldl_append, List.foldl_cons,
            List.foldl_nil, push_plain hplain, push_dotDot hplain]
    · rw [not_or] at hstay
      have hplain : Plain s := ⟨hstay.1, hstay.2, hup⟩
      rw [push_plain hplain, push_plain hplain, List.reverse_cons, List.foldl_append,
        List.foldl_cons, List.foldl_nil, push_plain hplain]

/-- Reducing the segments of a relative path does not change where they lead. -/
theorem foldl_push_reduce (stack segments : List Text) :
    (reduce false segments).foldl (push true) stack = segments.foldl (push true) stack := by
  have hmem (segments : List Text) :
      ∀ u ∈ segments.foldl (push false) [], u ≠ [] ∧ u ≠ dot := by
    intro u hu
    rcases mem_foldl_push hu with hnil | ⟨-, hplain⟩ | ⟨-, rfl⟩
    · exact nomatch hnil
    · exact ⟨hplain.1, hplain.2.1⟩
    · exact ⟨by decide, by decide⟩
  induction segments using List.reverseRecOn with
  | nil => rfl
  | append_singleton segments s ih =>
    rw [reduce, List.foldl_append, List.foldl_append, List.foldl_cons, List.foldl_nil,
      List.foldl_cons, List.foldl_nil, foldl_push_push stack (hmem segments) s]
    exact congrArg (push true · s) ih

/-- Segments that stay where they are. -/
def Idle (segments : List Text) : Prop := ∀ s ∈ segments, s = [] ∨ s = dot

theorem foldl_push_idle {rooted : Bool} {segments : List Text} (h : Idle segments)
    (stack : List Text) : segments.foldl (push rooted) stack = stack := by
  induction segments with
  | nil => rfl
  | cons s rest ih =>
    have hs : push rooted stack s = stack := by
      unfold push
      exact if_pos (h s List.mem_cons_self)
    rw [List.foldl_cons, hs]
    exact ih fun u hu => h u (List.mem_cons_of_mem s hu)

/-- A slash at the end adds an empty segment. -/
theorem splitSlash_trailing (t : Text) (slash : Prop) [Decidable slash] :
    splitSlash (t ++ if slash then ['/'] else []) =
      splitSlash t ++ if slash then [[]] else [] := by
  by_cases h : slash
  · rw [if_pos h, if_pos h, splitSlash_append]
    rfl
  · rw [if_neg h, if_neg h, List.append_nil, List.append_nil]

/-- A path does not start at the root if it begins with a segment that is not empty. -/
theorem isAbsolute_joinSlash_append {s : Text} (hne : s ≠ []) (hs : '/' ∉ s) (rest : List Text)
    (t : Text) : isAbsolute (joinSlash (s :: rest) ++ t) = false := by
  cases s with
  | nil => exact absurd rfl hne
  | cons c s =>
    have hc : c ≠ '/' := fun he => hs (he ▸ List.mem_cons_self)
    have hhead : (joinSlash ((c :: s) :: rest) ++ t).head? = some c := by
      cases rest <;> rfl
    rw [isAbsolute, hhead]
    simpa using hc

/-- The segments of the normal form of a path are the reduced ones between some that stay where
they are and are empty if any others are left. -/
theorem splitSlash_normalize (p : Text) :
    ∃ before after, splitSlash (normalize p) =
        before ++ reduce (isAbsolute p) (splitSlash p) ++ after ∧
      Idle before ∧ Idle after ∧
      (reduce (isAbsolute p) (splitSlash p) ≠ [] → ∀ s ∈ before ++ after, s = []) ∧
      isAbsolute (normalize p) = isAbsolute p := by
  have hidle : Idle (if p.getLast? = some '/' then [[]] else []) := by
    intro s hs
    split at hs
    · exact Or.inl (List.mem_singleton.mp hs)
    · exact nomatch hs
  have hempty : ∀ s ∈ (if p.getLast? = some '/' then [[]] else ([] : List Text)), s = [] := by
    intro s hs
    split at hs
    · exact List.mem_singleton.mp hs
    · exact nomatch hs
  have hslash : ∀ s ∈ reduce (isAbsolute p) (splitSlash p), s ≠ [] ∧ '/' ∉ s := by
    intro s hs
    rcases mem_reduce hs with ⟨hmem, hplain⟩ | ⟨-, rfl⟩
    · exact ⟨hplain.1, slash_not_mem_of_mem_splitSlash hmem⟩
    · exact ⟨by decide, by decide⟩
  unfold normalize
  generalize hsegments : reduce (isAbsolute p) (splitSlash p) = segments at hslash
  cases habs : isAbsolute p with
  | true =>
    cases segments with
    | nil => exact ⟨[[]], [[]], rfl, by simp [Idle], by simp [Idle], by simp, rfl⟩
    | cons s rest =>
      refine ⟨[[]], _, ?_, by simp [Idle], hidle, fun _ u hu => ?_, rfl⟩
      · simp only [List.isEmpty_cons, if_true, if_false, Bool.false_eq_true, List.cons_append]
        rw [splitSlash_slash, splitSlash_trailing,
          splitSlash_joinSlash (List.cons_ne_nil s rest) fun u hu => (hslash u hu).2]
        rfl
      · rcases List.mem_append.mp hu with hu | hu
        · exact List.mem_singleton.mp hu
        · exact hempty u hu
  | false =>
    cases segments with
    | nil =>
      refine ⟨[dot], _, ?_, by simp [Idle], hidle, fun h => absurd rfl h, rfl⟩
      simp only [List.isEmpty_nil, if_true, if_false, Bool.false_eq_true, List.append_nil]
      exact splitSlash_trailing dot (p.getLast? = some '/')
    | cons s rest =>
      refine ⟨[], _, ?_, by simp [Idle], hidle, fun _ u hu => hempty u hu, ?_⟩
      · simp only [List.isEmpty_cons, if_false, Bool.false_eq_true, List.nil_append]
        rw [splitSlash_trailing,
          splitSlash_joinSlash (List.cons_ne_nil s rest) fun u hu => (hslash u hu).2]
      · exact isAbsolute_joinSlash_append (hslash s List.mem_cons_self).1
          (hslash s List.mem_cons_self).2 rest _

/-- The normal form of a path names the same place. -/
theorem locate_normalize (here : Location) (p : Text) : locate here (normalize p) = locate here p := by
  obtain ⟨before, after, hsplit, hbefore, hafter, -, habs⟩ := splitSlash_normalize p
  rw [locate, locate, habs, hsplit]
  cases h : isAbsolute p with
  | true =>
    have hplain : ∀ s ∈ reduce true (splitSlash p), Plain s := fun s hs => (plain_of_mem_reduce hs).2
    rw [if_pos rfl, if_pos rfl, reduce, List.foldl_append, List.foldl_append,
      foldl_push_idle hbefore, foldl_push_idle hafter]
    exact reduce_plain true hplain
  | false =>
    rw [if_neg (by decide), if_neg (by decide)]
    unfold reduce
    rw [List.foldl_append, List.foldl_append, List.foldl_append, List.foldl_append,
      foldl_push_idle hbefore, foldl_push_idle hafter]
    exact congrArg List.reverse (foldl_push_reduce _ (splitSlash p))

section

variable {a b : Text} (ha : a ≠ []) (hb : ∀ s ∈ splitSlash b, Plain s)

include ha hb

theorem join_eq_normalize : join a b = normalize (a ++ '/' :: b) := by
  have hbne : b ≠ [] := by
    rintro rfl
    exact (hb [] List.mem_cons_self).1 rfl
  rw [join, if_neg (by simp [ha]), if_neg (by simp [hbne])]

omit hb in
theorem isAbsolute_append (b : Text) : isAbsolute (a ++ b) = isAbsolute a := by
  cases a with
  | nil => exact absurd rfl ha
  | cons c a => rfl

omit ha in
/-- A path of names does not start at the root. -/
theorem isAbsolute_of_plain : isAbsolute b = false := by
  cases b with
  | nil => rfl
  | cons c b =>
    rw [isAbsolute, List.head?_cons, beq_eq_false_iff_ne]
    intro hc
    rw [Option.some.inj hc, splitSlash_slash] at hb
    exact (hb [] List.mem_cons_self).1 rfl

omit ha in
/-- A path of names below another one leads from the place of that one by these names. -/
theorem locate_join (here : Location) : locate here (join a b) = locate here a ++ splitSlash b := by
  by_cases ha : a = []
  · subst ha
    have hjoin : join [] b = normalize b := rfl
    have hhere : locate here [] = reduce true here := by
      have hstay : (here ++ [[]]).foldl (push true) [] = here.foldl (push true) [] := by
        rw [List.foldl_append]
        exact foldl_push_idle (by simp [Idle]) _
      exact congrArg List.reverse hstay
    rw [hjoin, hhere, locate_normalize, locate, isAbsolute_of_plain hb, if_neg (by decide)]
    exact reduce_append_plain true here hb
  · rw [join_eq_normalize ha hb, locate_normalize, locate, locate, isAbsolute_append ha,
      splitSlash_append]
    cases isAbsolute a with
    | true => exact reduce_append_plain true (splitSlash a) hb
    | false =>
      rw [if_neg (by decide), if_neg (by decide), ← List.append_assoc]
      exact reduce_append_plain true (here ++ splitSlash a) hb

omit ha in
/-- Paths of names are told apart below any path, since they lead to different places. -/
theorem eq_of_join_eq {c : Text} (hc : ∀ s ∈ splitSlash c, Plain s) (h : join a b = join a c) :
    b = c := by
  have hplace := congrArg (locate []) h
  rw [locate_join hb, locate_join hc] at hplace
  rw [← joinSlash_splitSlash b, List.append_cancel_left hplace, joinSlash_splitSlash]

/-- The last name of a path of names is kept by putting the path below another one. -/
theorem baseName_join : baseName (join a b) = baseName b := by
  obtain ⟨before, after, hsplit, -, -, hempty, -⟩ := splitSlash_normalize (a ++ '/' :: b)
  rw [splitSlash_append, reduce_append_plain _ _ hb] at hsplit hempty
  have hne : splitSlash b ≠ [] := splitSlash_ne_nil b
  have hall := hempty (by simp [hne])
  have hnone (segments : List Text) (h : ∀ s ∈ segments, s = []) :
      segments.filter (!·.isEmpty) = [] :=
    List.filter_eq_nil_iff.mpr fun s hs => by simp [h s hs]
  have hself : (splitSlash b).filter (!·.isEmpty) = splitSlash b :=
    List.filter_eq_self.mpr fun s hs => by simp [(hb s hs).1]
  rw [baseName, baseName, join_eq_normalize ha hb, hsplit, List.filter_append, List.filter_append,
    List.filter_append, hnone after fun s hs => hall s (List.mem_append_right _ hs), hself,
    List.append_nil, ← List.append_assoc, List.getLast?_append]
  cases hlast : (splitSlash b).getLast? with
  | none => exact absurd (List.getLast?_eq_none_iff.mp hlast) hne
  | some s => rfl

/-- A path of names below another one names a backup or hidden file exactly if it does by itself. -/
theorem isBackup_join : isBackup (join a b) = isBackup b := by
  rw [isBackup, isBackup, stem, stem, baseName_join ha hb]

end

/-- A stack of names grows by one name at most, and only a name makes it grow. -/
theorem length_push {stack : List Text} (h : ∀ u ∈ stack, Plain u) (s : Text) :
    (push true stack s).length ≤ stack.length ∨ Plain s ∧ push true stack s = s :: stack := by
  by_cases hs : Plain s
  · exact Or.inr ⟨hs, push_plain hs⟩
  · left
    by_cases hup : s = dotDot
    · subst hup
      cases stack with
      | nil => exact Nat.le_refl 0
      | cons top rest =>
        rw [push_dotDot (h top List.mem_cons_self)]
        exact Nat.le_succ _
    · have hstay : s = [] ∨ s = dot := by
        by_contra hgo
        rw [not_or] at hgo
        exact hs ⟨hgo.1, hgo.2, hup⟩
      have hkept : push true stack s = stack := if_pos hstay
      exact Nat.le_of_eq (congrArg List.length hkept)

/-- Segments that make a stack of names as high as can be are all names. -/
theorem plain_of_length_foldl_push {segments stack : List Text} (h : ∀ u ∈ stack, Plain u) :
    (segments.foldl (push true) stack).length ≤ stack.length + segments.length ∧
      (stack.length + segments.length ≤ (segments.foldl (push true) stack).length →
        ∀ s ∈ segments, Plain s) := by
  induction segments generalizing stack with
  | nil => exact ⟨Nat.le_refl _, fun _ => List.forall_mem_nil _⟩
  | cons s rest ih =>
    rw [List.foldl_cons, List.length_cons]
    rcases length_push h s with hlow | ⟨hs, hpush⟩
    · have hpushed : ∀ u ∈ push true stack s, Plain u := by
        intro u hu
        rcases mem_push hu with hu | ⟨rfl, hu⟩ | ⟨hrooted, -⟩
        · exact h u hu
        · exact hu
        · cases hrooted
      obtain ⟨hle, -⟩ := ih hpushed
      exact ⟨by omega, fun hheight => by omega⟩
    · rw [hpush]
      have hcons : ∀ u ∈ s :: stack, Plain u := List.forall_mem_cons.mpr ⟨hs, h⟩
      obtain ⟨hle, hrest⟩ := ih hcons
      rw [List.length_cons] at hle hrest
      refine ⟨by omega, fun hheight => ?_⟩
      exact List.forall_mem_cons.mpr ⟨hs, hrest (by omega)⟩

/-- One path below another is worked off from the place of that one. -/
theorem locate_join_eq_foldl {a b : Text} (ha : a ≠ []) (hb : b ≠ []) (here : Location) :
    locate here (join a b) =
      ((splitSlash b).foldl (push true) (locate here a).reverse).reverse := by
  have hjoin : join a b = normalize (a ++ '/' :: b) := by
    rw [join, if_neg (by simp [ha]), if_neg (by simp [hb])]
  rw [hjoin, locate_normalize, locate, locate, isAbsolute_append ha, splitSlash_append]
  cases isAbsolute a with
  | true =>
    rw [if_pos rfl, if_pos rfl, reduce, reduce, List.foldl_append, List.reverse_reverse]
  | false =>
    rw [if_neg (by decide), if_neg (by decide), ← List.append_assoc, reduce, reduce,
      List.foldl_append, List.reverse_reverse]

/-- A path leads as far below another one as it has segments only if all of these are names, and then
it leads there by these names. -/
theorem eq_splitSlash_of_locate_join {a b : Text} (ha : a ≠ []) (hb : b ≠ []) {here way : Location}
    (h : locate here (join a b) = locate here a ++ way) (hlength : (splitSlash b).length ≤ way.length) :
    way = splitSlash b := by
  have hplain : ∀ s ∈ splitSlash b, Plain s := by
    have hstack : ∀ u ∈ (locate here a).reverse, Plain u :=
      fun u hu => (plain_of_mem_reduce (List.mem_reverse.mp hu)).2
    refine (plain_of_length_foldl_push hstack).2 ?_
    have hfold := congrArg List.length h
    rw [locate_join_eq_foldl ha hb, List.length_reverse, List.length_append] at hfold
    rw [List.length_reverse, hfold]
    omega
  rw [locate_join hplain] at h
  exact (List.append_cancel_left h).symm

/-- A path that ends with a slash has an empty last segment. -/
theorem getLast?_splitSlash {p : Text} (h : p.getLast? = some '/') :
    (splitSlash p).getLast? = some [] := by
  obtain ⟨front, rfl⟩ := List.getLast?_eq_some_iff.mp h
  rw [splitSlash_append, List.getLast?_append]
  rfl

/-- What the normal form of a path has in front of names at the end of the path. -/
def lead (rooted : Bool) (segments : List Text) : Text :=
  (if rooted then ['/'] else []) ++
    if (reduce rooted segments).isEmpty then [] else joinSlash (reduce rooted segments) ++ ['/']

/-- Names at the end of a path stay at the end of its normal form. -/
theorem normalize_eq_append {p : Text} {before names : List Text}
    (hsplit : splitSlash p = before ++ names) (hne : names ≠ []) (hnames : ∀ n ∈ names, Plain n) :
    normalize p = lead (isAbsolute p) before ++ joinSlash names := by
  have hslash : p.getLast? ≠ some '/' := by
    intro h
    have hlast := getLast?_splitSlash h
    rw [hsplit, List.getLast?_append, List.getLast?_eq_some_getLast hne] at hlast
    exact (hnames _ (List.getLast_mem hne)).1 (Option.some.inj hlast)
  have hreduce : reduce (isAbsolute p) (splitSlash p) = reduce (isAbsolute p) before ++ names := by
    rw [hsplit, reduce_append_plain _ _ hnames]
  unfold normalize lead
  rw [hreduce, if_neg hslash]
  generalize reduce (isAbsolute p) before = front
  cases front with
  | nil => cases isAbsolute p <;> simp [hne]
  | cons u front =>
    have hjoin := joinSlash_append (List.cons_ne_nil u front) hne
    rw [List.cons_append] at hjoin
    cases isAbsolute p <;> simp [hjoin]

/-- Putting a path of names below another path puts the same text in front of the names, whatever
they are. -/
theorem exists_join_eq_append (a : Text) (rooted : Bool) :
    ∃ front, ∀ names, names ≠ [] → (∀ n ∈ names, Plain n ∧ '/' ∉ n) →
      join a ((if rooted then ['/'] else []) ++ joinSlash names) = front ++ joinSlash names := by
  have hsplit {names : List Text} (hne : names ≠ []) (hnames : ∀ n ∈ names, Plain n ∧ '/' ∉ n) :
      splitSlash ((if rooted then ['/'] else []) ++ joinSlash names) =
        (if rooted then [[]] else []) ++ names := by
    have hself := splitSlash_joinSlash hne fun n hn => (hnames n hn).2
    cases rooted with
    | false => exact hself
    | true => exact (splitSlash_slash _).trans (congrArg _ hself)
  by_cases ha : a = []
  · subst ha
    refine ⟨lead rooted (if rooted then [[]] else []), fun names hne hnames => ?_⟩
    have habsolute : isAbsolute ((if rooted then ['/'] else []) ++ joinSlash names) = rooted := by
      cases rooted with
      | true => rfl
      | false =>
        obtain ⟨n, rest, rfl⟩ := List.exists_cons_of_ne_nil hne
        have hn := hnames n List.mem_cons_self
        have hpath := isAbsolute_joinSlash_append hn.1.1 hn.2 rest []
        rwa [List.append_nil] at hpath
    have hjoin := normalize_eq_append (hsplit hne hnames) hne fun n hn => (hnames n hn).1
    rw [habsolute] at hjoin
    exact hjoin
  · refine ⟨lead (isAbsolute a) (splitSlash a ++ if rooted then [[]] else []),
      fun names hne hnames => ?_⟩
    have hb : (if rooted then ['/'] else []) ++ joinSlash names ≠ [] := by
      intro hnil
      have hempty := hsplit hne hnames
      rw [hnil] at hempty
      cases rooted with
      | true => exact hne (List.cons.inj hempty).2.symm
      | false =>
        have hnames' : [[]] = names := hempty
        exact (hnames [] (hnames' ▸ List.mem_cons_self)).1.1 rfl
    have hpath : splitSlash (a ++ '/' :: ((if rooted then ['/'] else []) ++ joinSlash names)) =
        (splitSlash a ++ if rooted then [[]] else []) ++ names := by
      rw [splitSlash_append, hsplit hne hnames, List.append_assoc]
    rw [join, if_neg (by simpa using ha), if_neg (by simpa using hb),
      normalize_eq_append hpath hne fun n hn => (hnames n hn).1, isAbsolute_append ha]

end Path

end CaseFiles
