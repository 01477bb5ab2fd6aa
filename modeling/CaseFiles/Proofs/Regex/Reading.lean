import CaseFiles.Proofs.Regex.Lexing

/-!
# Reading fragments

What the lexemes of a fragment do to the state of reading depends on its rank: an atom and a term
add one term to the last alternative, a row adds its terms, and a choice fills in the alternatives
of a group that has just been opened. Main statement: the state after each fragment
(`reads_fragment`); none of its lexemes counts or names a group (`groupNames_fragment`).
-/

namespace CaseFiles

namespace Regex

/-- The expression that a fragment is read as. -/
def Fragment.regex {k : Rank} : Fragment k → Regex
  | set s => .unit s.charset
  | char c _ => .unit (.single (unitOf c))
  | group body => body.regex
  | once a => a.regex
  | repeated a r => .rep r.quantifier a.regex
  | empty => .empty
  | cons t rest => .seq t.regex rest.regex
  | only r => r.regex
  | or r rest => .alt r.regex rest.regex

/-- No group of a fragment keeps anything. -/
@[simp] theorem Fragment.groups_regex {k : Rank} (x : Fragment k) : x.regex.groups = [] := by
  induction x with
  | set | char | empty => rfl
  | group _ ih | once _ ih | repeated _ _ ih | only _ ih => exact ih
  | cons t rest iht ihr => rw [regex, groups, iht, ihr, List.append_nil]
  | or r rest ihr ihm => rw [regex, groups, ihr, ihm, List.append_nil]

/-- Units name no group. -/
theorem groupNames_units (n : Nat) (us : List CodeUnit) (xs : List Lexeme) :
    groupNames n (us.map (fun u => .unit (.single u)) ++ xs) = groupNames n xs := by
  induction us with
  | nil => rfl
  | cons u us ih => exact ih

/-- The lexemes of a fragment name no group. -/
theorem groupNames_fragment {k : Rank} (x : Fragment k) (n : Nat) (xs : List Lexeme) :
    groupNames n (x.lexemes ++ xs) = groupNames n xs := by
  induction x generalizing xs with
  | set s => rfl
  | char c _ => exact groupNames_units n _ xs
  | group body ih =>
    rw [Fragment.lexemes, List.cons_append, List.cons_append, List.append_assoc]
    exact ih (.closing :: xs)
  | once a ih => exact ih xs
  | repeated a r ih =>
    rw [Fragment.lexemes, List.append_assoc]
    exact ih (.quantifier r.quantifier :: xs)
  | empty => rfl
  | cons t rest iht ihr =>
    rw [Fragment.lexemes, List.append_assoc, iht, ihr]
  | only r ih => exact ih xs
  | or r rest ihr ihm =>
    rw [Fragment.lexemes, List.append_assoc, ihr]
    exact ihm xs

namespace Reader

/-- The state after some terms of the last alternative, given with the latest first. -/
def push (r : Reader) (ts : List Regex) (canRepeat : Bool) : Reader :=
  { r with top := { r.top with terms := ts ++ r.top.terms }, canRepeat }

end Reader

/-- A quoted character adds its units. -/
theorem foldlM_charLexemes (names : List (Text × Nat)) (total : Nat) (c : Char) (r : Reader) :
    ∃ b, (charLexemes c).foldlM (Reader.step names total) r =
      some (r.push ((Text.charUnits c).map fun u => .unit (.single u)).reverse b) := by
  by_cases hc : c.toNat < 0x10000
  · rw [charLexemes, charUnits_of_basic hc]
    exact ⟨true, rfl⟩
  · obtain ⟨u, v, hu, -⟩ := Text.charUnits_pair hc
    rw [charLexemes, hu]
    exact ⟨true, rfl⟩

variable (names : List (Text × Nat)) (total : Nat)

/-- What a fragment of each rank does to the state of reading. -/
def Reads {k : Rank} (x : Fragment k) : Prop :=
  match k with
  | .atom => ∀ r, x.lexemes.foldlM (Reader.step names total) r = some (r.add x.regex)
  | .term =>
    ∃ b, ∀ r, x.lexemes.foldlM (Reader.step names total) r = some (r.push [x.regex] b)
  | .row =>
    ∀ r, ∃ ts b, x.lexemes.foldlM (Reader.step names total) r = some (r.push ts b) ∧
      ts.foldl (fun rest t => seq t rest) Regex.empty = x.regex
  | .choice =>
    ∀ r : Reader, r.top.terms = [] → ∃ top b,
      x.lexemes.foldlM (Reader.step names total) r =
        some { r with top := top, canRepeat := b } ∧
      top.opening = r.top.opening ∧ top.index = r.top.index ∧
      top.body = r.top.alternatives.foldl (fun rest a => alt a rest) x.regex

variable {names total}

/-- A group that only holds a choice together is that choice. -/
theorem reads_group {body : Fragment .choice} (h : Reads names total body) :
    Reads names total (.group body) := by
  intro r
  obtain ⟨top, b, hread, hopen, -, hbody⟩ :=
    h ⟨.new .plain r.count, r.top :: r.outer, r.count, false⟩ rfl
  have hclose : top.close = body.regex := by
    rw [Frame.close, hopen]
    exact hbody
  have hrepeatable : top.repeatable = true := by
    rw [Frame.repeatable, hopen]
    rfl
  rw [Fragment.lexemes, List.cons_append, List.foldlM_cons]
  change (body.lexemes ++ [Lexeme.closing]).foldlM (Reader.step names total)
    ⟨.new .plain r.count, r.top :: r.outer, r.count, false⟩ = _
  rw [List.foldlM_append, hread]
  change some (Reader.mk (r.top.add top.close) r.outer r.count top.repeatable) = _
  rw [hclose, hrepeatable]
  rfl

/-- The state of reading after each fragment. -/
theorem reads_fragment {k : Rank} (x : Fragment k) : Reads names total x := by
  induction x with
  | set s => exact fun r => rfl
  | char c basic =>
    intro r
    rw [Fragment.lexemes, charLexemes, charUnits_of_basic basic]
    rfl
  | group body ih => exact reads_group ih
  | once a ih => exact ⟨true, fun r => ih r⟩
  | repeated a q ih =>
    refine ⟨false, fun r => ?_⟩
    rw [Fragment.lexemes, List.foldlM_append, ih r]
    rfl
  | empty => exact fun r => ⟨[], r.canRepeat, rfl, rfl⟩
  | cons t rest iht ihr =>
    intro r
    obtain ⟨b, ht⟩ := iht
    obtain ⟨ts, c, hrest, hrow⟩ := ihr (r.push [t.regex] b)
    refine ⟨ts ++ [t.regex], c, ?_, ?_⟩
    · rw [Fragment.lexemes, List.foldlM_append, ht r]
      apply hrest.trans
      simp [Reader.push]
    · rw [List.foldl_append, hrow]
      rfl
  | only row ih =>
    intro r hterms
    obtain ⟨ts, b, hread, hrow⟩ := ih r
    refine ⟨_, b, hread, rfl, rfl, ?_⟩
    rw [Frame.body, Frame.row, hterms, List.append_nil, hrow]
    rfl
  | or row rest ihr ihm =>
    intro r hterms
    obtain ⟨ts, b, hread, hrow⟩ := ihr r
    obtain ⟨top, c, hrest, hopen, hindex, hbody⟩ :=
      ihm { r with top := (r.push ts b).top.split, canRepeat := false } rfl
    refine ⟨top, c, ?_, hopen, hindex, ?_⟩
    · rw [Fragment.lexemes, List.foldlM_append, hread]
      exact hrest
    · rw [hbody]
      simp only [Frame.split, Frame.row, Reader.push, hterms, List.append_nil, hrow,
        List.foldl_cons]
      rfl

end Regex

end CaseFiles
