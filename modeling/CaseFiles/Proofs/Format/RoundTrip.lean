import CaseFiles.Proofs.Format.Conformance
import CaseFiles.Proofs.Regex.Nesting

/-!
# Rendering what was read

What a format finds in a text is rendered into that text again, whatever its fragments are made of.
A fragment that is an expression on its own ends in the pattern where its group does, and nothing
that is matched later changes what the group of a field has kept. So the words of the fields and the
plain characters stand one after the other from the start of the text to its end. Main statement:
`render_of_parse`.
-/

namespace CaseFiles

namespace Format

open Regex (Lexeme Next Place Reader groupNames unitOf)

/-- The terms of parts whose fields have any fragments: no group that is opened later has the number
of one that belongs to a field. -/
inductive Terms (index : Char → Nat) : List Char → List Part → List Regex → Prop
  | nil {seen : List Char} : Terms index seen [] []
  | text {seen : List Char} {c : Char} {ps : List Part} {ts : List Regex} :
      Terms index seen ps ts →
      Terms index seen (.text c :: ps)
        ((Text.charUnits c).map (fun u => .unit (.single u)) ++ ts)
  | again {seen : List Char} {key : Char} {ps : List Part} {ts : List Regex} :
      key ∈ seen → Terms index (key :: seen) ps ts →
      Terms index seen (.field key :: ps) (.back (index key) :: ts)
  | first {seen : List Char} {key : Char} {ps : List Part} {body : Regex} {ts : List Regex} :
      key ∉ seen → (∀ k ∈ seen, index k ∉ (Regex.group (index key) body).groups) →
      Terms index (key :: seen) ps ts →
      Terms index seen (.field key :: ps) (.group (index key) body :: ts)

/-- The number of the group of a key among named groups. -/
def numberIn (names : List (Text × Nat)) (key : Char) : Nat :=
  (names.lookup (groupName key)).getD 0

section

variable {names : List (Text × Nat)} {total : Nat}

theorem numberIn_of_lookup {key : Char} {i : Nat} (h : names.lookup (groupName key) = some i) :
    numberIn names key = i := by
  rw [numberIn, h]
  rfl

/-- Lexemes with fragments spliced in are read as terms. Numbers are given out in order, so the
groups in a fragment have larger numbers than those of the fields before it. -/
theorem exists_terms {ps : List Part} {seen : List Char} {xs : List Lexeme}
    (hxs : Spliced seen ps xs) {r r' : Reader}
    (hnames : ∀ p ∈ groupNames r.count xs, names.lookup p.1 = some p.2)
    (hseen : ∀ key ∈ seen, numberIn names key ≤ r.count)
    (h : xs.foldlM (Reader.step names total) r = some r') :
    ∃ ts b n, Terms (numberIn names) seen ps ts ∧
      r' = { r.push ts.reverse b with count := n } := by
  induction hxs generalizing r with
  | nil => exact ⟨[], r.canRepeat, r.count, .nil, (Option.some.inj h).symm⟩
  | @text seen c ps xs _ ih =>
    obtain ⟨b, hchar⟩ := Regex.foldlM_charLexemes names total c r
    rw [List.foldlM_append, hchar] at h
    rw [Regex.charLexemes, Regex.groupNames_units] at hnames
    obtain ⟨ts, b', n, hts, rfl⟩ := ih (r := r.push _ b) hnames hseen h
    refine ⟨_, b', n, .text hts, ?_⟩
    simp [Reader.push]
  | @again seen key ps xs hk _ ih =>
    rw [List.foldlM_cons] at h
    obtain ⟨s, hs, h⟩ := Option.bind_eq_some_iff.mp h
    obtain ⟨i, hi, rfl⟩ := Option.map_eq_some_iff.mp hs
    rw [← numberIn_of_lookup hi] at h
    have hmore : ∀ k ∈ key :: seen, numberIn names k ≤ r.count :=
      List.forall_mem_cons.mpr ⟨hseen key hk, hseen⟩
    obtain ⟨ts, b, n, hts, rfl⟩ := ih (r := r.add _) hnames hmore h
    refine ⟨_, b, n, .again hk hts, ?_⟩
    simp [Reader.push, Reader.add, Regex.Frame.add]
  | @first seen key ps ys xs hk hys _ ih =>
    obtain ⟨body, b, hgroups, hrest⟩ :=
      Reader.exists_group_of_foldlM (Regex.balanced_of_nestAll hys) h
    have hnumber : numberIn names key = r.count + 1 :=
      numberIn_of_lookup (hnames (groupName key, r.count + 1) List.mem_cons_self)
    rw [← hnumber] at hgroups hrest
    have hinner : ∀ p ∈ groupNames (numberIn names key + Regex.groupCount ys) xs,
        names.lookup p.1 = some p.2 := by
      intro p hp
      refine hnames p (List.mem_cons_of_mem _ ?_)
      rw [Regex.groupNames_append, ← hnumber]
      exact List.mem_append_right _ hp
    have hmore : ∀ k ∈ key :: seen,
        numberIn names k ≤ numberIn names key + Regex.groupCount ys := by
      refine List.forall_mem_cons.mpr ⟨Nat.le_add_right _ _, fun k hmem => ?_⟩
      have := hseen k hmem
      omega
    have hfresh : ∀ k ∈ seen,
        numberIn names k ∉ (Regex.group (numberIn names key) body).groups :=
      fun k hmem hin => Nat.not_lt.mpr (hseen k hmem) (hgroups _ hin)
    obtain ⟨ts, b', n, hts, rfl⟩ := ih (r := ⟨_, _, _, b⟩) hinner hmore hrest
    refine ⟨_, b', n, .first hk hfresh hts, ?_⟩
    simp [Reader.push, Regex.Frame.add]

/-- The group of each field has a number. -/
theorem lookup_of_spliced {ps : List Part} {seen : List Char} {xs : List Lexeme} {n : Nat}
    (hxs : Spliced seen ps xs) (hnames : ∀ p ∈ groupNames n xs, names.lookup p.1 = some p.2)
    (hseen : ∀ key ∈ seen, names.lookup (groupName key) = some (numberIn names key)) :
    ∀ key, InUse seen ps key → names.lookup (groupName key) = some (numberIn names key) := by
  induction hxs generalizing n with
  | nil => exact fun key hk => hseen key (hk.resolve_right List.not_mem_nil)
  | text _ ih =>
    simp only [inUse_text_iff]
    rw [Regex.charLexemes, Regex.groupNames_units] at hnames
    exact ih hnames hseen
  | @again seen key ps xs hk _ ih =>
    simp only [inUse_cons_iff]
    exact ih hnames (List.forall_mem_cons.mpr ⟨hseen key hk, hseen⟩)
  | @first seen key ps ys xs _ _ _ ih =>
    simp only [inUse_cons_iff]
    have hkey := hnames (groupName key, n + 1) List.mem_cons_self
    rw [← numberIn_of_lookup hkey] at hkey
    refine ih (n := n + 1 + Regex.groupCount ys) (fun p hp => ?_)
      (List.forall_mem_cons.mpr ⟨hkey, hseen⟩)
    refine hnames p (List.mem_cons_of_mem _ ?_)
    rw [Regex.groupNames_append]
    exact List.mem_append_right _ hp

end

/-- What a match takes is what is no longer left. -/
theorem between_append {p q : Place} (h : q.after <:+ p.after) :
    p.between true q ++ q.after = p.after := by
  obtain ⟨w, hw⟩ := h
  have hlength : p.after.length - q.after.length = w.length := by
    rw [← hw, List.length_append, Nat.add_sub_cancel]
  rw [Place.between, if_pos rfl, hlength, ← hw, List.take_left]

/-- A group keeps what its body takes, and groups outside of it keep what they have kept. -/
theorem group_walks {i : Nat} {body rest : Regex} {p z : Place} {next : Next}
    (h : (Regex.seq (.group i body) rest).run true p next = some z) :
    ∃ q w, p.after = w ++ q.after ∧ q.kept.lookup i = some w ∧
      (∀ j, j ∉ (Regex.group i body).groups → q.kept.lookup j = p.kept.lookup j) ∧
      rest.run true q next = some z := by
  obtain ⟨q, hq, hrest⟩ := (Regex.walks_run body true).onward
    (h : body.run true p (fun q => rest.run true (q.keep i (p.between true q)) next) = some z)
  refine ⟨q.keep i (p.between true q), p.between true q, (between_append (hq.after rfl)).symm,
    ?_, fun j hj => ?_, hrest⟩
  · rw [Place.lookup_keep, if_pos rfl]
  · rw [Place.lookup_keep, if_neg (List.ne_of_not_mem_cons hj)]
    exact hq.kept j (List.not_mem_of_not_mem_cons hj)

/-- What is matched from the terms on fills in the parts, with words that the groups keep. Those in
a fragment may keep what they like, as none of them is the group of a field before it. -/
theorem terms_sound {index : Char → Nat} {ps : List Part} {seen : List Char} {ts : List Regex}
    (hts : Terms index seen ps ts) {p q : Place} {u : Char → List CodeUnit}
    (hu : ∀ key ∈ seen, p.kept.lookup (index key) = some (u key))
    (h : (ts.foldr Regex.seq (.seq (.edge .finish) .empty)).run true p some = some q) :
    ∃ v, (∀ key ∈ seen, v key = u key) ∧
      (∀ key, InUse seen ps key → q.kept.lookup (index key) = some (v key)) ∧
      p.after = fill Text.charUnits v ps := by
  induction hts generalizing p u with
  | nil =>
    rw [List.foldr_nil, run_finish] at h
    split at h
    · rename_i hafter
      rw [← Option.some.inj h]
      exact ⟨u, fun _ _ => rfl, fun key hk => hu key (hk.resolve_right List.not_mem_nil), hafter⟩
    · exact nomatch h
  | @text seen c ps ts _ ih =>
    simp only [inUse_text_iff]
    rw [List.foldr_append, run_units] at h
    split at h
    · rename_i hprefix
      obtain ⟨v, hvu, hv, hafter⟩ := ih (p := p.past (Text.charUnits c)) hu h
      refine ⟨v, hvu, hv, ?_⟩
      rw [fill_text, ← hafter]
      exact after_eq_append hprefix
    · exact nomatch h
  | @again seen key ps ts hk _ ih =>
    simp only [inUse_cons_iff]
    rw [List.foldr_cons, run_back (hu key hk)] at h
    split at h
    · rename_i hprefix
      obtain ⟨v, hvu, hv, hafter⟩ :=
        ih (p := p.past (u key)) (List.forall_mem_cons.mpr ⟨hu key hk, hu⟩) h
      obtain ⟨hvkey, hvseen⟩ := List.forall_mem_cons.mp hvu
      refine ⟨v, hvseen, hv, ?_⟩
      rw [fill_field, hvkey, ← hafter]
      exact after_eq_append hprefix
    · exact nomatch h
  | @first seen key ps body ts hk hfresh _ ih =>
    simp only [inUse_cons_iff]
    rw [List.foldr_cons] at h
    obtain ⟨m, w, hsplit, hkept, houtside, hrest⟩ := group_walks h
    have hne {k : Char} (hmem : k ∈ seen) : k ≠ key := fun he => hk (he ▸ hmem)
    have hm : ∀ k ∈ key :: seen,
        m.kept.lookup (index k) = some (Function.update u key w k) := by
      refine List.forall_mem_cons.mpr ⟨?_, fun k hmem => ?_⟩
      · rw [Function.update_self, hkept]
      · rw [Function.update_of_ne (hne hmem), houtside _ (hfresh k hmem), hu k hmem]
    obtain ⟨v, hvu, hv, hafter⟩ := ih hm hrest
    obtain ⟨hvkey, hvseen⟩ := List.forall_mem_cons.mp hvu
    refine ⟨v, fun k hmem => ?_, hv, ?_⟩
    · rw [hvseen k hmem, Function.update_of_ne (hne hmem)]
    · rw [fill_field, hvkey, Function.update_self, ← hafter, hsplit]

/-- An anchored source is read as the lexemes of its parts between those of the anchors, although
alone a fragment may be read by other rules than where groups have names. -/
theorem exists_spliced_anchored {fragment : Char → Text} {ps : List Part} {ws : List Lexeme}
    (hfragment : ∀ key, .field key ∈ ps → (Regex.parse (fragment key).units).isSome = true)
    (h : Regex.lexemes
      (Regex.namesGroup false (Text.units (Regex.anchored (splice fragment [] ps))))
      (Text.units (Regex.anchored (splice fragment [] ps))) = some ws) :
    ∃ xs, ws = .edge .start :: (xs ++ [.edge .finish]) ∧ Spliced [] ps xs := by
  rw [namesGroup_anchored, units_anchored] at h
  obtain ⟨n, x, rest, more, -, hx, hmore, rfl⟩ := Regex.exists_of_readLexemes_cons h
  obtain ⟨rfl, rfl⟩ := Prod.mk.inj (Option.some.inj hx)
  obtain ⟨m, xs, zs, rfl, hxs, hzs⟩ := exists_spliced
    (fun key hk => Regex.afterClose_of_parse (hfragment key hk))
    (fun key hk => namesGroup_splice fragment hk _) hmore
  obtain ⟨m, y, rest, more, -, hy, hmore, rfl⟩ := Regex.exists_of_readLexemes_cons hzs
  obtain ⟨rfl, rfl⟩ := Prod.mk.inj (Option.some.inj hy)
  rw [Regex.readLexemes_nil] at hmore
  obtain rfl := Option.some.inj hmore
  exact ⟨xs, rfl, hxs⟩

/-- An anchored source is read as the terms of its parts between the anchors. -/
theorem exists_terms_anchored {fragment : Char → Text} {ps : List Part} {parsed : Regex.Parsed}
    (hfragment : ∀ key, .field key ∈ ps → (Regex.parse (fragment key).units).isSome = true)
    (h : Regex.parse (Text.units (Regex.anchored (splice fragment [] ps))) = some parsed) :
    ∃ ts, Terms (numberIn parsed.names) [] ps ts ∧
      parsed.regex = .seq (.edge .start) (ts.foldr Regex.seq (.seq (.edge .finish) .empty)) ∧
      ∀ key, .field key ∈ ps →
        parsed.names.lookup (groupName key) = some (numberIn parsed.names key) := by
  obtain ⟨ws, hws, hread⟩ := Option.bind_eq_some_iff.mp h
  obtain ⟨xs, rfl, hxs⟩ := exists_spliced_anchored hfragment hws
  obtain ⟨hnodup, r, hr, -, rfl⟩ := Regex.exists_of_ofLexemes hread
  have hsame : groupNames 0 (.edge .start :: (xs ++ [.edge .finish])) = groupNames 0 xs :=
    (Regex.groupNames_append 0 xs [.edge .finish]).trans (List.append_nil _)
  rw [hsame] at hnodup hr ⊢
  have hnames : ∀ p ∈ groupNames 0 xs, (groupNames 0 xs).lookup p.1 = some p.2 :=
    fun p hp => (lookup_eq_some_iff hnodup).mpr hp
  rw [List.foldlM_cons] at hr
  change (xs ++ [Lexeme.edge .finish]).foldlM (Reader.step (groupNames 0 xs) _)
    { Reader.start with top := Reader.start.top.add (.edge .start) } = some r at hr
  rw [List.foldlM_append] at hr
  obtain ⟨s, hs, hr⟩ := Option.bind_eq_some_iff.mp hr
  obtain ⟨ts, b, n, hts, rfl⟩ :=
    exists_terms hxs hnames (fun _ hk => absurd hk List.not_mem_nil) hs
  obtain rfl := Option.some.inj hr
  refine ⟨ts, hts, ?_, fun key hk => ?_⟩
  · change (Regex.edge .finish :: (ts.reverse ++ [Regex.edge .start])).foldl
      (fun rest t => Regex.seq t rest) Regex.empty = _
    rw [List.foldl_cons, List.foldl_append, List.foldl_reverse]
    rfl
  · exact lookup_of_spliced hxs hnames (fun _ hk => absurd hk List.not_mem_nil) key (Or.inr hk)

/-- What an anchored source captures fills in its parts. -/
theorem capture_sound {fragment : Char → Text} {ps : List Part} {text : List CodeUnit}
    {of : Text → Option (List CodeUnit)}
    (hfragment : ∀ key, .field key ∈ ps → (Regex.parse (fragment key).units).isSome = true)
    (h : Regex.capture (Regex.anchored (splice fragment [] ps)) text = .ok (some of)) :
    ∃ v : Char → List CodeUnit, (∀ key, .field key ∈ ps → of (groupName key) = some (v key)) ∧
      text = fill Text.charUnits v ps := by
  unfold Regex.capture at h
  split at h
  · exact nomatch h
  · rename_i parsed hparsed
    obtain ⟨kept, hkept, rfl⟩ := Option.map_eq_some_iff.mp (Except.ok.inj h)
    obtain ⟨ts, hts, hregex, hnumber⟩ := exists_terms_anchored hfragment hparsed
    rw [hregex, exec_start, Option.map_eq_some_iff] at hkept
    obtain ⟨q, hrun, rfl⟩ := hkept
    obtain ⟨v, -, hv, htext⟩ :=
      terms_sound (u := fun _ => []) hts (fun _ hk => absurd hk List.not_mem_nil) hrun
    refine ⟨v, fun key hk => ?_, htext⟩
    change (parsed.names.lookup (groupName key)).bind (q.kept.lookup ·) = some (v key)
    rw [hnumber key hk]
    exact hv key (Or.inr hk)

/-- Where fields are found, the pattern of the format has captured them. -/
theorem exists_capture_of_parse {table : Table Text} {f t : Text} {fields : Fields}
    (h : parse table f t = .ok (some fields)) :
    ∃ p of, pattern table f = .ok p ∧
      Regex.capture (Regex.anchored p.source) t.units = .ok (some of) ∧
      fields = p.groups.map fun (key, group) => (key, (of group).getD []) := by
  unfold parse at h
  cases hp : pattern table f with
  | error cause =>
    rw [hp] at h
    exact nomatch h
  | ok p =>
    rw [hp] at h
    change (Regex.capture (Regex.anchored p.source) t.units >>= _) = _ at h
    cases hcapture : Regex.capture (Regex.anchored p.source) t.units with
    | error cause =>
      rw [hcapture] at h
      exact nomatch h
    | ok kept =>
      rw [hcapture] at h
      obtain ⟨of, rfl, rfl⟩ := Option.map_eq_some_iff.mp (Except.ok.inj h)
      exact ⟨p, of, rfl, hcapture, rfl⟩

/-- Where fields are found, they are words for the keys of the format, and the text is what its
parts are filled into with them. -/
theorem parse_sound {table : Table Text} {f t : Text} {fields : Fields}
    (hfragments : ∀ key ∈ fieldKeys (parts f), ∀ fragment, table.lookup [key] = some fragment →
      (Regex.parse fragment.units).isSome = true)
    (h : parse table f t = .ok (some fields)) :
    keys f = .ok (fieldKeys (parts f)) ∧ ∃ v : Char → List CodeUnit,
      fields = (fieldKeys (parts f)).map (fun key => (key, v key)) ∧
        t.units = fill Text.charUnits v (parts f) := by
  obtain ⟨p, of, hp, hof, rfl⟩ := exists_capture_of_parse h
  obtain ⟨hend, fragment, hfragment, rfl⟩ := pattern_eq_ok_iff.mp hp
  obtain ⟨v, hv, htext⟩ := capture_sound
    (fun key hk => hfragments key (mem_fieldKeys.mpr hk) _ (hfragment key hk)) hof
  refine ⟨keys_eq_ok_iff.mpr ⟨hend, rfl⟩, v, ?_, htext⟩
  rw [List.map_map]
  refine List.map_congr_left fun key hkey => ?_
  change (key, (of (groupName key)).getD []) = (key, v key)
  rw [hv key (mem_fieldKeys.mp hkey)]
  rfl

/-- If each fragment is an expression on its own, then the fields that a format finds in a text are
those of the format, and it is rendered with them into the text again, as far as units go; where
all the fields are texts, also as a text. -/
theorem render_of_parse {table : Table Text} {f t : Text} {fields : Fields}
    (hfragments : ∀ key ∈ fieldKeys (parts f), ∀ fragment, table.lookup [key] = some fragment →
      (Regex.parse fragment.units).isSome = true)
    (h : parse table f t = .ok (some fields)) :
    keys f = .ok (fields.map Prod.fst) ∧ (fieldTable fields).lookup ['%'] = none ∧
      renderWith Text.charUnits (fieldTable fields) f = .ok t.units ∧
      ∀ values : Table Text, (values.map fun p => (p.1, p.2.units)) = fieldTable fields →
        render values f = .ok t := by
  obtain ⟨hkeys, v, rfl, htext⟩ := parse_sound hfragments h
  have htable : fieldTable ((fieldKeys (parts f)).map fun key => (key, v key)) =
      assigned (fieldKeys (parts f)) v := by
    rw [fieldTable, List.map_map]
    rfl
  rw [htable]
  have hpercent : (assigned (fieldKeys (parts f)) v).lookup ['%'] = none := by
    rw [List.lookup_eq_none_iff]
    intro p hp
    obtain ⟨key, hkey, rfl⟩ := List.mem_map.mp hp
    have hne : key ≠ '%' := ne_of_mem_of_not_mem hkey (percent_notMem_fieldKeys f)
    exact bne_iff_ne.mpr fun he => hne (List.cons.inj he).1.symm
  have hrender : renderWith Text.charUnits (assigned (fieldKeys (parts f)) v) f = .ok t.units := by
    rw [renderWith_assigned hkeys, htext]
  refine ⟨?_, hpercent, hrender, fun values hvalues => ?_⟩
  · rw [hkeys, List.map_map]
    exact congrArg Except.ok (List.map_id _).symm
  · rw [← hvalues] at hpercent hrender
    rw [lookup_map_value, Option.map_eq_none_iff] at hpercent
    exact render_of_renderWith hpercent hrender

/-- A character and as few of its repetitions as lead to a dash or to the end. -/
def repetitions : Text := "(?<c>.)\\k<c>+?(?=-|$)".toList

/-- A field with such a fragment, with a group, a reference back and a look ahead in it, is found in
`xxx-xxx` and rendered into it again. -/
theorem render_repetitions_twice :
    parse [(['a'], repetitions)] "%a-%a".toList "xxx-xxx".toList =
        .ok (some [('a', Text.units "xxx".toList)]) ∧
      render [(['a'], "xxx".toList)] "%a-%a".toList = .ok "xxx-xxx".toList := by
  have hparse : parse [(['a'], repetitions)] "%a-%a".toList "xxx-xxx".toList =
      .ok (some [('a', Text.units "xxx".toList)]) := by decide +kernel
  have hkeys : fieldKeys (parts "%a-%a".toList) = ['a'] := by decide +kernel
  have hfragments : ∀ key ∈ fieldKeys (parts "%a-%a".toList), ∀ fragment,
      List.lookup [key] [(['a'], repetitions)] = some fragment →
        (Regex.parse fragment.units).isSome = true := by
    rw [hkeys]
    intro key hkey fragment hfragment
    rw [List.mem_singleton.mp hkey] at hfragment
    rw [← Option.some.inj (hfragment : some repetitions = some fragment)]
    decide +kernel
  obtain ⟨-, -, -, hrender⟩ := render_of_parse hfragments hparse
  exact ⟨hparse, hrender [(['a'], "xxx".toList)] rfl⟩

end Format

end CaseFiles
