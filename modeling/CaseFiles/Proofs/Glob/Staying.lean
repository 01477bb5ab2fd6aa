import CaseFiles.Proofs.Glob.Steps

/-!
# Where a glob looks

Whatever a glob finds is there, and whatever is kept by the names in directories and by the literal
segments of the glob is kept on the way to it. In particular a glob without `..` never leads up, so
that what it finds is spelled by names below the place where it starts, no matter where links lead.
Main statements: `found_of_mem_walk`, `below_of_mem_walk`, `length_lt_of_mem_walk`.
-/

namespace CaseFiles

namespace Glob

open CaseFiles.Path (Plain isName)

variable {t : FileTree} {l x : Location}

/-- A location is another one with names after it that can be told apart in a path. -/
def Below (l x : Location) : Prop := ∃ ns, x = l ++ ns ∧ ∀ n ∈ ns, Plain n ∧ '/' ∉ n

theorem Below.refl (l : Location) : Below l l :=
  ⟨[], (List.append_nil l).symm, List.forall_mem_nil _⟩

theorem Below.trans {y : Location} (h : Below l x) (h' : Below x y) : Below l y := by
  obtain ⟨ns, rfl, hns⟩ := h
  obtain ⟨ms, rfl, hms⟩ := h'
  exact ⟨ns ++ ms, List.append_assoc l ns ms, List.forall_mem_append.mpr ⟨hns, hms⟩⟩

theorem below_snoc {n : Text} (h : Plain n ∧ '/' ∉ n) : Below l (l ++ [n]) :=
  ⟨[n], rfl, List.forall_mem_singleton.mpr h⟩

theorem telling_of_isName {n : Text} (h : isName n = true) : Plain n ∧ '/' ∉ n :=
  ⟨(Path.isName_iff.mp h).1, (Path.isName_iff.mp h).2.1⟩

/-- A property of places that a glob keeps on its way: the names in directories keep it, and so do
the literal segments. -/
structure Kept (P : Location → Prop) (segments : List Segment) : Prop where
  name {l : Location} {n : Text} : P l → isName n = true → P (l ++ [n])
  literal {l : Location} {m : Text} : .literal m ∈ segments → P l → P (stepTo l m)

section

variable {P : Location → Prop} {segments rest : List Segment} {s : Segment}

theorem Kept.tail (hP : Kept P (s :: rest)) : Kept P rest :=
  ⟨hP.name, fun hm => hP.literal (List.mem_cons_of_mem s hm)⟩

theorem Kept.names (hP : Kept P segments) (hl : P l) {way : Location}
    (hway : ∀ n ∈ way, isName n = true) : P (l ++ way) := by
  induction way generalizing l with
  | nil => rwa [List.append_nil]
  | cons n way ih =>
    rw [List.append_cons]
    exact ih (hP.name hl (hway n List.mem_cons_self)) fun m hm => hway m (List.mem_cons_of_mem n hm)

/-- What is listed and is no directory is found. -/
theorem Kept.leaf (hP : Kept P segments) (hl : P l) {n : Text} {k : Entry} (h : (n, k) ∈ t.list l)
    (hk : isLeaf k = true) : P (l ++ [n]) ∧ Leaf t (l ++ [n]) :=
  ⟨hP.name hl (isName_of_mem_list h), k, FileTree.entry?_of_mem_list h, hk⟩

theorem Kept.taken (hP : Kept P segments) {mode : Mode} (hl : P l) (h : x ∈ taken t mode l) :
    P x := by
  unfold Glob.taken at h
  split at h
  · cases h
  · obtain ⟨way, rfl, hway⟩ := exists_way_of_mem_reach h
    exact hP.names hl hway

/-- A globstar keeps what the segments after it keep. -/
theorem Kept.star (hP : Kept P segments) {last : Bool} {go : Mode → Location → List Location}
    {up : Option (Location → List Location)} {mode : Mode} (hl : P l)
    (hgo : ∀ mode l x, P l → x ∈ go mode l → P x ∧ Leaf t x)
    (hup : ∀ look ∈ up, ∀ d x, P d → x ∈ look d.dropLast → P x ∧ Leaf t x)
    (h : Starred t last go up mode l x) : P x ∧ Leaf t x := by
  cases h with
  | here _ _ hx =>
    obtain ⟨rfl, hleaf⟩ := mem_leafAt.mp hx
    exact ⟨hl, hleaf⟩
  | aboveHere _ _ hlook hx => exact hup _ hlook l x hl hx
  | leaf _ hd hn hk _ hx =>
    subst hx
    exact hP.leaf (hP.taken hl hd) hn hk
  | direct _ hd hx => exact hgo _ _ x (hP.taken hl hd) hx
  | linked _ _ hd hn _ _ hx =>
    exact hgo _ _ x (hP.name (hP.taken hl hd) (isName_of_mem_list hn)) hx
  | above hd hlook _ hx => exact hup _ hlook _ x (hP.taken hl hd) hx
  | around hd _ _ hx => exact hgo _ _ x (hP.taken hl hd) hx

/-- A step through the names in a directory keeps what the segments after it keep. -/
theorem Kept.through (hP : Kept P segments) (hl : P l)
    (hrest : ∀ mode l x, P l → x ∈ walk t rest mode l → P x ∧ Leaf t x)
    (h : x ∈ Glob.through t s rest l) : P x ∧ Leaf t x := by
  obtain ⟨n, k, hn, -, ⟨-, hk, rfl⟩ | ⟨-, -, hx⟩⟩ := mem_through.mp h
  · exact hP.leaf hl hn hk
  · exact hrest _ _ x (hP.name hl (isName_of_mem_list hn)) hx

/-- Whatever a glob finds is there, and the glob keeps its properties on the way. The
proof takes along the segments after the first one, since a globstar before `..` looks past it. -/
theorem found_of_mem_walk (hP : Kept P segments) {mode : Mode} (hl : P l)
    (h : x ∈ walk t segments mode l) : P x ∧ Leaf t x := by
  suffices hboth : (∀ mode l x, P l → x ∈ walk t segments mode l → P x ∧ Leaf t x) ∧
      ∀ mode l x, P l → x ∈ walk t segments.tail mode l → P x ∧ Leaf t x from
    hboth.1 mode l x hl h
  clear h hl
  induction segments with
  | nil => exact ⟨fun _ _ _ _ h => (nomatch h), fun _ _ _ _ h => (nomatch h)⟩
  | cons s rest ih =>
    obtain ⟨hrest, hmore⟩ := ih hP.tail
    refine ⟨fun mode l x hl h => ?_, hrest⟩
    cases s with
    | globstar =>
      obtain ⟨up, hwalk, hup⟩ := exists_up_of_globstar (t := t) rest mode l
      rw [hwalk, mem_star] at h
      refine hP.star hl hrest (fun look hlook d x hd hx => ?_) h
      obtain ⟨more, rfl, rfl⟩ := hup look hlook
      exact hmore _ _ x (hP.literal (List.mem_cons_of_mem _ List.mem_cons_self) hd) hx
    | literal m =>
      cases mode with
      | list => exact hP.through hl hrest h
      | enter first =>
        have hstep := hP.literal List.mem_cons_self hl
        rw [walk] at h
        split at h
        · split at h
          · rename_i hm
            rw [stepTo_plain (isPlain_iff.mp hm)] at hstep
            obtain ⟨rfl, hleaf⟩ := mem_leafAt.mp h
            exact ⟨hstep, hleaf⟩
          · cases h
        · exact hrest _ _ x hstep h
    | ending tail => cases mode <;> exact hP.through hl hrest h
    | wild ps => cases mode <;> exact hP.through hl hrest h

/-- Places below another one are kept by literal segments that do not lead up. -/
theorem kept_below (h : ∀ m, .literal m ∈ segments → m ≠ Path.dotDot ∧ '/' ∉ m) (l : Location) :
    Kept (Below l) segments := by
  refine ⟨fun hx hn => hx.trans (below_snoc (telling_of_isName hn)), fun {x m} hm hx => ?_⟩
  obtain ⟨hup, hslash⟩ := h m hm
  rcases Path.stays_or_up_or_plain m with hstay | rfl | hplain
  · rw [stepTo, if_pos hstay]
    exact hx
  · exact absurd rfl hup
  · rw [stepTo_plain hplain]
    exact hx.trans (below_snoc ⟨hplain, hslash⟩)

/-- A glob that does not lead up stays below where it starts. -/
theorem below_of_mem_walk (h : ∀ m, .literal m ∈ segments → m ≠ Path.dotDot ∧ '/' ∉ m)
    {mode : Mode} (hx : x ∈ walk t segments mode l) : Below l x :=
  (found_of_mem_walk (kept_below h l) (.refl l) hx).1

/-- Lengths are kept from below by literal segments that are names. -/
theorem kept_length (h : ∀ m, .literal m ∈ segments → Plain m) (k : Nat) :
    Kept (fun x => k ≤ x.length) segments := by
  refine ⟨fun hl _ => ?_, fun hm hl => ?_⟩
  · rw [List.length_append]
    exact Nat.le_add_right_of_le hl
  · rw [stepTo_plain (h _ hm), List.length_append]
    exact Nat.le_add_right_of_le hl

/-- A glob that goes by names finds nothing where it starts, unless it is a globstar alone. -/
theorem length_lt_of_mem_walk (h : ∀ m, .literal m ∈ segments → Plain m)
    {mode : Mode} (hmode : mode = .list ∨ segments ≠ [.globstar]) (hx : x ∈ walk t segments mode l) :
    l.length < x.length := by
  induction segments generalizing mode l with
  | nil => cases hx
  | cons s rest ih =>
    have hrest : ∀ m, .literal m ∈ rest → Plain m := fun m hm => h m (List.mem_cons_of_mem s hm)
    have hname {l : Location} {n : Text} (hx : x ∈ walk t rest (.enter false) (l ++ [n])) :
        l.length < x.length := by
      have hkept := (found_of_mem_walk (kept_length hrest (l ++ [n]).length) (Nat.le_refl _) hx).1
      rwa [List.length_append] at hkept
    have hthrough (hx : x ∈ through t s rest l) : l.length < x.length := by
      obtain ⟨n, k, -, -, ⟨-, -, rfl⟩ | ⟨-, -, hx⟩⟩ := mem_through.mp hx
      · simp
      · exact hname hx
    cases s with
    | globstar =>
      rw [walk_globstar fun m hm => (hrest m hm).2.2, mem_star] at hx
      have htaken {d : Location} (hd : d ∈ taken t mode l) : l.length ≤ d.length :=
        (kept_length hrest l.length).taken (Nat.le_refl _) hd
      cases hx with
      | here hlast hlist _ =>
        refine absurd ?_ (hmode.resolve_left hlist)
        rw [List.isEmpty_iff.mp hlast]
      | leaf _ hd _ _ _ hx =>
        rw [hx, List.length_append]
        exact Nat.lt_succ_of_le (htaken hd)
      | direct _ hd hx => exact Nat.lt_of_le_of_lt (htaken hd) (ih hrest (Or.inl rfl) hx)
      | linked _ _ hd _ _ _ hx => exact Nat.lt_of_le_of_lt (htaken hd) (hname hx)
      | aboveHere _ _ hup _ | above _ hup _ _ | around _ hup _ _ => cases hup
    | literal m =>
      cases mode with
      | list => exact hthrough hx
      | enter first =>
        have hm := h m List.mem_cons_self
        rw [walk, stepTo_plain hm] at hx
        split at hx
        · split at hx
          · rw [(mem_leafAt.mp hx).1]
            simp
          · cases hx
        · exact hname hx
    | ending tail => cases mode <;> exact hthrough hx
    | wild ps => cases mode <;> exact hthrough hx

/-- From a link a globstar that comes first finds nothing but the link. -/
theorem eq_of_mem_walk_link {rest : List Segment} (hrest : ∀ m, .literal m ∈ rest → Plain m)
    (hlink : linkAt t l = true) (hx : x ∈ walk t (.globstar :: rest) (.enter true) l) : x = l := by
  rw [walk_globstar fun m hm => (hrest m hm).2.2, mem_star] at hx
  have htaken {d : Location} (hd : d ∈ taken t (.enter true) l) : False := by
    unfold taken at hd
    rw [if_pos ⟨rfl, hlink⟩] at hd
    cases hd
  cases hx with
  | here _ _ hx => exact (mem_leafAt.mp hx).1
  | leaf _ hd _ _ _ _ | direct _ hd _ | linked _ _ hd _ _ _ _ => exact (htaken hd).elim
  | aboveHere _ _ hup _ | above _ hup _ _ | around _ hup _ _ => cases hup

end

end Glob

end CaseFiles
