import CaseFiles.Association
import CaseFiles.Proofs.Regex.Nameless
import CaseFiles.Proofs.Regex.Nesting

/-!
# Renaming groups

What an expression is read as does not depend on how its groups are called, as long as references
lead to the same numbers. Main statements: reading goes on in the same way with groups renamed
(`foldlM_rename`), and so the expression is the same (`ofLexemes_rename`, `ofLexemes_renameAll`).
-/

namespace CaseFiles

namespace Regex

section

variable (called : Text → Option Text)

/-- An opening with its group renamed; where there is no new name, the group has none. -/
def Opening.rename : Opening → Opening
  | .capture name => .capture (name.bind called)
  | .plain => .plain
  | .look ahead negated => .look ahead negated

/-- A lexeme with the group renamed that it opens or refers to. -/
def Lexeme.rename : Lexeme → Lexeme
  | .opening o => .opening (o.rename called)
  | .named name => .named ((called name).getD name)
  | .unit set => .unit set
  | .edge e => .edge e
  | .closing => .closing
  | .bar => .bar
  | .quantifier q => .quantifier q
  | .number digits => .number digits

/-- An open group, renamed. -/
def Frame.rename (f : Frame) : Frame := { f with opening := f.opening.rename called }

/-- The state of reading with all open groups renamed. -/
def Reader.rename (r : Reader) : Reader :=
  { r with top := r.top.rename called, outer := r.outer.map (Frame.rename called) }

/-- A group is the same term under each name. -/
theorem Frame.close_rename (f : Frame) : (f.rename called).close = f.close := by
  obtain ⟨opening, index, alternatives, terms⟩ := f
  cases opening <;> rfl

theorem Frame.repeatable_rename (f : Frame) : (f.rename called).repeatable = f.repeatable := by
  obtain ⟨opening, index, alternatives, terms⟩ := f
  cases opening <;> rfl

theorem Reader.foldl_add_rename (ts : List Regex) (r : Reader) :
    ts.foldl Reader.add (r.rename called) = (ts.foldl Reader.add r).rename called := by
  induction ts generalizing r with
  | nil => rfl
  | cons t ts ih => exact ih (r.add t)

variable {called} {names names' : List (Text × Nat)} {total : Nat}

/-- Reading one lexeme goes on in the same way with groups renamed. -/
theorem step_rename {x : Lexeme} (r : Reader)
    (hx : ∀ name, x = .named name →
      names'.lookup ((called name).getD name) = names.lookup name) :
    Reader.step names' total (r.rename called) (x.rename called) =
      (Reader.step names total r x).map (Reader.rename called) := by
  cases x with
  | opening o => cases o <;> rfl
  | closing =>
    obtain ⟨top, outer, count, canRepeat⟩ := r
    cases outer with
    | nil => rfl
    | cons f fs =>
      change some (Reader.mk ((f.rename called).add (top.rename called).close)
        (fs.map (Frame.rename called)) count (top.rename called).repeatable) = _
      rw [Frame.close_rename, Frame.repeatable_rename]
      rfl
  | quantifier q =>
    obtain ⟨⟨opening, index, alternatives, terms⟩, outer, count, canRepeat⟩ := r
    cases terms with
    | nil => rfl
    | cons t ts => cases canRepeat <;> rfl
  | number digits => exact congrArg some (Reader.foldl_add_rename called _ r)
  | named name =>
    rw [Lexeme.rename, Reader.step, hx name rfl, Reader.step, Option.map_map]
    rfl
  | unit | edge | bar => rfl

theorem foldlM_rename {xs : List Lexeme} (r : Reader)
    (hxs : ∀ name, .named name ∈ xs →
      names'.lookup ((called name).getD name) = names.lookup name) :
    (xs.map (Lexeme.rename called)).foldlM (Reader.step names' total) (r.rename called) =
      (xs.foldlM (Reader.step names total) r).map (Reader.rename called) := by
  induction xs generalizing r with
  | nil => rfl
  | cons x xs ih =>
    rw [List.map_cons, List.foldlM_cons, List.foldlM_cons,
      step_rename r fun name hx => hxs name (hx ▸ List.mem_cons_self)]
    cases Reader.step names total r x with
    | none => rfl
    | some s => exact ih s fun name hmem => hxs name (List.mem_cons_of_mem x hmem)

/-- There is nothing to rename where no name stands. -/
theorem map_rename_of_nameless {xs : List Lexeme} (h : ∀ x ∈ xs, x.nameless = true) :
    xs.map (Lexeme.rename called) = xs := by
  refine (List.map_congr_left fun x hx => ?_).trans (List.map_id xs)
  have hx := h x hx
  cases x with
  | opening o =>
    cases o with
    | capture name =>
      cases name with
      | none => rfl
      | some name => cases hx
    | plain | look => rfl
  | named name => cases hx
  | unit | edge | closing | bar | quantifier | number => rfl

theorem groupCount_rename (xs : List Lexeme) :
    groupCount (xs.map (Lexeme.rename called)) = groupCount xs := by
  rw [groupCount, groupCount, List.countP_map]
  refine List.countP_congr fun x _ => ?_
  cases x with
  | opening o => cases o <;> exact Iff.rfl
  | _ => exact Iff.rfl

/-- With groups renamed, the same expression is read, if no name is given twice either way and
references lead to the same numbers. -/
theorem ofLexemes_rename {xs : List Lexeme}
    (hnodup : ((groupNames 0 (xs.map (Lexeme.rename called))).map Prod.fst).Nodup ↔
      ((groupNames 0 xs).map Prod.fst).Nodup)
    (hxs : ∀ name, .named name ∈ xs →
      (groupNames 0 (xs.map (Lexeme.rename called))).lookup ((called name).getD name) =
        (groupNames 0 xs).lookup name) :
    ofLexemes (xs.map (Lexeme.rename called)) =
      (ofLexemes xs).map fun parsed =>
        ⟨parsed.regex, groupNames 0 (xs.map (Lexeme.rename called))⟩ := by
  unfold ofLexemes
  simp only
  by_cases h : ((groupNames 0 xs).map Prod.fst).Nodup
  · rw [if_pos h, if_pos (hnodup.mpr h), groupCount_rename]
    have hread : (xs.map (Lexeme.rename called)).foldlM
          (Reader.step (groupNames 0 (xs.map (Lexeme.rename called))) (groupCount xs)) Reader.start =
        (xs.foldlM (Reader.step (groupNames 0 xs) (groupCount xs)) Reader.start).map
          (Reader.rename called) := foldlM_rename Reader.start hxs
    rw [hread]
    cases xs.foldlM (Reader.step (groupNames 0 xs) (groupCount xs)) Reader.start with
    | none => rfl
    | some r =>
      obtain ⟨top, outer, count, canRepeat⟩ := r
      cases outer <;> rfl
  · rw [if_neg h, if_neg (mt hnodup.mp h)]
    rfl

end

theorem exists_of_mem_groupNames {n : Nat} {xs : List Lexeme} {q : Text × Nat}
    (h : q ∈ groupNames n xs) : ∃ x ∈ xs, x.name? = some q.1 := by
  induction xs generalizing n with
  | nil => cases h
  | cons x xs ih =>
    have hmore {m : Nat} (hq : q ∈ groupNames m xs) : ∃ y ∈ x :: xs, y.name? = some q.1 := by
      obtain ⟨y, hy, hname⟩ := ih hq
      exact ⟨y, List.mem_cons_of_mem x hy, hname⟩
    cases x with
    | opening o =>
      cases o with
      | capture name =>
        cases name with
        | none => exact hmore h
        | some name =>
          rcases List.mem_cons.mp h with rfl | h
          · exact ⟨_, List.mem_cons_self, rfl⟩
          · exact hmore h
      | plain | look => exact hmore h
    | unit | edge | closing | bar | quantifier | number | named => exact hmore h

theorem groupNames_rename (g : Text → Text) (n : Nat) (xs : List Lexeme) :
    groupNames n (xs.map (Lexeme.rename fun name => some (g name))) =
      (groupNames n xs).map fun q => (g q.1, q.2) := by
  induction xs generalizing n with
  | nil => rfl
  | cons x xs ih =>
    cases x with
    | opening o =>
      cases o with
      | capture name =>
        cases name with
        | none => exact ih (n + 1)
        | some name => exact congrArg ((g name, n + 1) :: ·) (ih (n + 1))
      | plain | look => exact ih n
    | unit | edge | closing | bar | quantifier | number | named => exact ih n

/-- New names that tell the groups apart as the old ones do make no difference but in the names. -/
theorem ofLexemes_renameAll {g : Text → Text} {xs : List Lexeme} {P : Text → Prop}
    (hxs : ∀ x ∈ xs, ∀ name, x.name? = some name → P name)
    (hg : ∀ m n, P m → P n → g m = g n → m = n) :
    ofLexemes (xs.map (Lexeme.rename fun name => some (g name))) =
      (ofLexemes xs).map fun parsed =>
        ⟨parsed.regex, (groupNames 0 xs).map fun q => (g q.1, q.2)⟩ := by
  have hnames : ∀ q ∈ groupNames 0 xs, P q.1 := by
    intro q hq
    obtain ⟨x, hx, hname⟩ := exists_of_mem_groupNames hq
    exact hxs x hx q.1 hname
  rw [ofLexemes_rename, groupNames_rename]
  · rw [groupNames_rename, List.map_map]
    have hmap : (groupNames 0 xs).map (Prod.fst ∘ fun q => (g q.1, q.2)) =
        ((groupNames 0 xs).map Prod.fst).map g := by
      rw [List.map_map]
      rfl
    rw [hmap]
    refine ⟨List.Nodup.of_map g, fun h => h.map_on fun m hm n hn => ?_⟩
    obtain ⟨p, hp, rfl⟩ := List.mem_map.mp hm
    obtain ⟨q, hq, rfl⟩ := List.mem_map.mp hn
    exact hg p.1 q.1 (hnames p hp) (hnames q hq)
  · intro name hname
    rw [groupNames_rename]
    exact lookup_map_fst fun q hq => hg q.1 name (hnames q hq) (hxs _ hname name rfl)

end Regex

end CaseFiles
