import CaseFiles.Backup
import Mathlib.Data.List.Induction
import Mathlib.Data.List.TakeWhile

/-!
# The stem of a path

Whether a path names a backup or hidden file is told by the stem of its last name, whatever comes
before this name and however many slashes come after it. A path with anything but slashes in it has
exactly one last name. A name that begins with a dot has a stem that does so, too; any other one is
cut before its last dot. Main statement: `isBackup_iff_stem`.
-/

namespace CaseFiles

namespace Path

/-- The path ends in this name, but for slashes after it. Before the name there is a slash or
nothing. -/
structure EndsIn (p b : Text) : Prop where
  ne_nil : b ≠ []
  slash_not_mem : '/' ∉ b
  exists_eq : ∃ front slashes, p = front ++ b ++ List.replicate slashes '/' ∧
    (front = [] ∨ front.getLast? = some '/')

/-- Each slash at the end of a path adds an empty segment. -/
theorem splitSlash_append_replicate (t : Text) (slashes : Nat) :
    splitSlash (t ++ List.replicate slashes '/') =
      splitSlash t ++ List.replicate slashes [] := by
  induction slashes with
  | zero => rw [List.replicate_zero, List.replicate_zero, List.append_nil, List.append_nil]
  | succ n ih =>
    rw [List.replicate_succ', List.replicate_succ', ← List.append_assoc, splitSlash_append, ih,
      List.append_assoc]
    rfl

/-- The last segment that is not empty is the last name. -/
theorem EndsIn.baseName_eq {p b : Text} (h : EndsIn p b) : baseName p = b := by
  obtain ⟨front, slashes, rfl, hfront⟩ := h.exists_eq
  have hsplit : ∃ before, splitSlash (front ++ b) = before ++ [b] := by
    rcases hfront with rfl | hfront
    · exact ⟨[], splitSlash_of_not_mem h.slash_not_mem⟩
    · obtain ⟨parent, rfl⟩ := List.getLast?_eq_some_iff.mp hfront
      refine ⟨splitSlash parent, ?_⟩
      rw [List.append_assoc, List.singleton_append, splitSlash_append,
        splitSlash_of_not_mem h.slash_not_mem]
  obtain ⟨before, hbefore⟩ := hsplit
  have hname : [b].filter (!·.isEmpty) = [b] := by simp [h.ne_nil]
  have hslashes : (List.replicate slashes ([] : Text)).filter (!·.isEmpty) = [] := by simp
  rw [baseName, splitSlash_append_replicate, hbefore, List.filter_append, List.filter_append,
    hname, hslashes, List.append_nil, List.getLast?_concat, Option.getD_some]

/-- A name is the last one of itself. -/
theorem EndsIn.self {p b : Text} (h : EndsIn p b) : EndsIn b b :=
  ⟨h.ne_nil, h.slash_not_mem, [], 0, by simp, Or.inl rfl⟩

/-- Anything but slashes in a path is in its last name or before it. -/
theorem exists_endsIn {p : Text} (h : ∃ c ∈ p, c ≠ '/') : ∃ b, EndsIn p b := by
  induction p using List.reverseRecOn with
  | nil =>
    obtain ⟨c, hc, -⟩ := h
    cases hc
  | append_singleton p c ih =>
    by_cases hc : c = '/'
    · have hp : ∃ d ∈ p, d ≠ '/' := by
        obtain ⟨d, hd, hne⟩ := h
        rcases List.mem_append.mp hd with hd | hd
        · exact ⟨d, hd, hne⟩
        · exact absurd ((List.mem_singleton.mp hd).trans hc) hne
      obtain ⟨b, hb⟩ := ih hp
      obtain ⟨front, slashes, rfl, hfront⟩ := hb.exists_eq
      refine ⟨b, hb.ne_nil, hb.slash_not_mem, front, slashes + 1, ?_, hfront⟩
      rw [hc, List.replicate_succ', List.append_assoc]
    · by_cases hstart : p = [] ∨ p.getLast? = some '/'
      · refine ⟨[c], List.cons_ne_nil c [], ?_, p, 0, by simp, hstart⟩
        simpa using Ne.symm hc
      · rw [not_or] at hstart
        have hlast := List.getLast?_eq_some_getLast hstart.1
        have hp : ∃ d ∈ p, d ≠ '/' :=
          ⟨_, List.getLast_mem hstart.1, fun he => hstart.2 (he ▸ hlast)⟩
        obtain ⟨b, hb⟩ := ih hp
        obtain ⟨front, slashes, rfl, hfront⟩ := hb.exists_eq
        cases slashes with
        | zero =>
          refine ⟨b ++ [c], by simp, ?_, front, 0, by simp, hfront⟩
          rw [List.mem_append, not_or]
          exact ⟨hb.slash_not_mem, by simpa using Ne.symm hc⟩
        | succ n =>
          rw [List.replicate_succ', ← List.append_assoc, List.getLast?_concat] at hstart
          exact absurd rfl hstart.2

/-- What a name has before its last dot, or the whole name if there is no dot in it. -/
def HasStem (b stem : Text) : Prop :=
  ('.' ∉ b ∧ stem = b) ∨ ∃ ext, '.' ∉ ext ∧ b = stem ++ '.' :: ext

theorem exists_hasStem (b : Text) : ∃ stem, HasStem b stem := by
  induction b with
  | nil => exact ⟨[], Or.inl ⟨List.not_mem_nil, rfl⟩⟩
  | cons c b ih =>
    obtain ⟨stem, ⟨hdot, rfl⟩ | ⟨ext, hext, rfl⟩⟩ := ih
    · by_cases hc : c = '.'
      · subst hc
        exact ⟨[], Or.inr ⟨stem, hdot, rfl⟩⟩
      · refine ⟨c :: stem, Or.inl ⟨?_, rfl⟩⟩
        rw [List.mem_cons, not_or]
        exact ⟨Ne.symm hc, hdot⟩
    · exact ⟨c :: stem, Or.inr ⟨ext, hext, rfl⟩⟩

/-- Seen from its end, a name without a dot is passed over; any other one is passed over up to its
last dot, and the stem comes after that. -/
theorem HasStem.dropWhile_reverse {b stem : Text} (h : HasStem b stem) :
    (stem = b ∧ b.reverse.dropWhile (· != '.') = []) ∨
      b.reverse.dropWhile (· != '.') = '.' :: stem.reverse := by
  have hpass {t : Text} (ht : '.' ∉ t) : ∀ c ∈ t.reverse, (c != '.') = true := by
    intro c hc
    rw [bne_iff_ne]
    rintro rfl
    exact ht (List.mem_reverse.mp hc)
  rcases h with ⟨hdot, rfl⟩ | ⟨ext, hext, rfl⟩
  · exact Or.inl ⟨rfl, List.dropWhile_eq_nil_iff.mpr (hpass hdot)⟩
  · right
    rw [List.reverse_append, List.reverse_cons, List.append_assoc,
      List.dropWhile_append_of_pos (hpass hext)]
    rfl

theorem HasStem.unique {b stem stem' : Text} (h : HasStem b stem) (h' : HasStem b stem') :
    stem = stem' := by
  rcases h.dropWhile_reverse with ⟨rfl, hnil⟩ | hcons
  · rcases h'.dropWhile_reverse with ⟨rfl, -⟩ | hcons
    · rfl
    · rw [hnil] at hcons
      cases hcons
  · rcases h'.dropWhile_reverse with ⟨rfl, hnil⟩ | hcons'
    · rw [hnil] at hcons
      cases hcons
    · rw [hcons] at hcons'
      exact List.reverse_inj.mp (List.cons.inj hcons').2

/-- A name is cut down to its stem unless it leads up or would be left empty. -/
theorem HasStem.stemOf_eq {b stem : Text} (h : HasStem b stem) :
    stemOf b = if b = dotDot ∨ stem = [] then b else stem := by
  by_cases hb : b = dotDot
  · rw [if_pos (Or.inl hb), stemOf, if_pos hb]
  · rw [stemOf, if_neg hb]
    rcases h.dropWhile_reverse with ⟨rfl, hnil⟩ | hcons
    · rw [hnil, ite_self]
    · rw [hcons]
      cases hstem : stem.reverse with
      | nil => rw [if_pos (Or.inr (List.reverse_eq_nil_iff.mp hstem))]
      | cons c rest =>
        have hstem' : (c :: rest).reverse = stem := by rw [← hstem, List.reverse_reverse]
        have hne : stem ≠ [] := by
          rintro rfl
          cases hstem
        rw [if_neg (not_or.mpr ⟨hb, hne⟩)]
        exact hstem'

/-- A stem that is not empty begins as the name does. -/
theorem HasStem.head?_eq {b stem : Text} (h : HasStem b stem) (hne : stem ≠ []) :
    stem.head? = b.head? := by
  rcases h with ⟨-, rfl⟩ | ⟨ext, -, rfl⟩
  · rfl
  · cases stem with
    | nil => exact absurd rfl hne
    | cons c stem => rfl

/-- The stem of a name that begins with a dot begins with a dot. -/
theorem head?_stemOf {b : Text} (hb : b.head? = some '.') : (stemOf b).head? = some '.' := by
  obtain ⟨stem, hstem⟩ := exists_hasStem b
  rw [hstem.stemOf_eq]
  split
  next => exact hb
  next hcut =>
    rw [not_or] at hcut
    rw [hstem.head?_eq hcut.2, hb]

/-- A name that does not begin with a dot is cut before its last dot. -/
theorem HasStem.stemOf_eq_of_head? {b stem : Text} (h : HasStem b stem)
    (hb : b.head? ≠ some '.') : stemOf b = stem := by
  rw [h.stemOf_eq]
  split
  next hkept =>
    rcases hkept with rfl | rfl
    · exact absurd rfl hb
    · rcases h with ⟨-, rfl⟩ | ⟨ext, -, rfl⟩
      · rfl
      · exact absurd rfl hb
  next => rfl

end Path

open CaseFiles.Path (EndsIn HasStem)

/-- The last name of a path tells whether it names a backup or hidden file. -/
theorem isBackup_iff {p b : Text} (h : EndsIn p b) :
    isBackup p = true ↔
      (Path.stemOf b).getLast? = some '~' ∨
        (Path.stemOf b).head? = some '#' ∧ (Path.stemOf b).getLast? = some '#' ∨
        (Path.stemOf b).head? = some '.' := by
  have hstem : Path.stem p = Path.stemOf b := congrArg Path.stemOf h.baseName_eq
  rw [isBackup, hstem]
  simp only [Bool.or_eq_true, Bool.and_eq_true, beq_iff_eq, or_assoc]

/-- A path with anything but slashes in it has exactly one last name, and names a backup or hidden
file exactly if this name does. It does if the name begins with a dot. Otherwise the name has
exactly one stem, and it does exactly if the stem ends with a tilde or stands between number signs,
which may be one and the same. -/
theorem isBackup_iff_stem {p : Text} (h : ∃ c ∈ p, c ≠ '/') :
    (∃! b, EndsIn p b) ∧
      ∀ b, EndsIn p b →
        isBackup p = isBackup b ∧
          (b.head? = some '.' → isBackup p = true) ∧
          (b.head? ≠ some '.' →
            (∃! stem, HasStem b stem) ∧
              ∀ stem, HasStem b stem →
                (isBackup p = true ↔ stem.getLast? = some '~' ∨
                  stem.head? = some '#' ∧ stem.getLast? = some '#')) := by
  obtain ⟨last, hlast⟩ := Path.exists_endsIn h
  refine ⟨⟨last, hlast, fun b hb => hb.baseName_eq.symm.trans hlast.baseName_eq⟩, ?_⟩
  intro b hb
  refine ⟨?_, fun hdot => ?_, fun hdot => ⟨?_, fun stem hstem => ?_⟩⟩
  · rw [Bool.eq_iff_iff, isBackup_iff hb, isBackup_iff hb.self]
  · rw [isBackup_iff hb]
    exact Or.inr (Or.inr (Path.head?_stemOf hdot))
  · obtain ⟨stem, hstem⟩ := Path.exists_hasStem b
    exact ⟨stem, hstem, fun stem' hstem' => hstem'.unique hstem⟩
  · have hshown : stem.head? ≠ some '.' := by
      intro hhead
      have hne : stem ≠ [] := by
        rintro rfl
        cases hhead
      exact hdot (hstem.head?_eq hne ▸ hhead)
    rw [isBackup_iff hb, hstem.stemOf_eq_of_head? hdot]
    simp only [hshown, or_false]

/-- One number sign is enough, in a directory with a dot in its name and with slashes at the end. -/
theorem isBackup_iff_stem_slashes :
    (∃ c ∈ ['a', '.', 'b', '/', '#', '.', 'i', 'n', '/', '/'], c ≠ '/') ∧
      EndsIn ['a', '.', 'b', '/', '#', '.', 'i', 'n', '/', '/'] ['#', '.', 'i', 'n'] ∧
      HasStem ['#', '.', 'i', 'n'] ['#'] ∧
      isBackup ['a', '.', 'b', '/', '#', '.', 'i', 'n', '/', '/'] = true := by
  have hchar : ∃ c ∈ ['a', '.', 'b', '/', '#', '.', 'i', 'n', '/', '/'], c ≠ '/' :=
    ⟨'a', List.mem_cons_self, by decide⟩
  have hends : EndsIn ['a', '.', 'b', '/', '#', '.', 'i', 'n', '/', '/'] ['#', '.', 'i', 'n'] :=
    ⟨by decide, by decide, ['a', '.', 'b', '/'], 2, rfl, Or.inr rfl⟩
  have hstem : HasStem ['#', '.', 'i', 'n'] ['#'] := Or.inr ⟨['i', 'n'], by decide, rfl⟩
  obtain ⟨-, -, hshown⟩ := (isBackup_iff_stem hchar).2 _ hends
  exact ⟨hchar, hends, hstem, ((hshown (by decide)).2 _ hstem).mpr (Or.inr ⟨rfl, rfl⟩)⟩

end CaseFiles
