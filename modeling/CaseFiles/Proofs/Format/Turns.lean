import CaseFiles.Proofs.Format.Scanning

/-!
# Scanners take turns

A scanner of a session is moved on by the requests that go to it, and by nothing else. So what it
answers is told by its format and by how often it has been asked before, as if it were the only one.
Main statement: `answers_independent`.
-/

namespace CaseFiles

open Format (scan percentRun)

namespace Scanner

/-- A scanner after it has been asked some times. -/
def advance (s : Scanner) : Nat → Scanner
  | 0 => s
  | k + 1 => s.next.2.advance k

/-- What a new scanner answers if it has been asked `k` times before: the token at this place; after
the last token that the format is malformed, if a percent sign is left over; and from then on that
there is nothing more. -/
def answerAt (f : Text) (k : Nat) : Answer :=
  match (scan f).tokens[k]? with
  | some t => .token t
  | none =>
    if k = (scan f).tokens.length ∧ percentRun f % 2 = 1 then .failed (.malformedFormat f) else .done

/-- A scanner that is asked again and again hands out its tokens, gives its ending once, and is done
from then on. -/
theorem next_advance (s : Scanner) (k : Nat) :
    (s.advance k).next.1 =
      match (scan s.rest).tokens[k]? with
      | some t => .token t
      | none => if k = (scan s.rest).tokens.length then s.ending else .done := by
  induction k generalizing s with
  | zero =>
    cases htokens : (scan s.rest).tokens with
    | nil => exact (next_of_nil htokens).1
    | cons t ts => exact (next_of_cons htokens).1
  | succ k ih =>
    rw [advance, ih]
    cases htokens : (scan s.rest).tokens with
    | nil =>
      obtain ⟨-, hnil, hending⟩ := next_of_nil htokens
      rw [hnil, hending, ite_self]
      rfl
    | cons t ts =>
      obtain ⟨-, hts, hending⟩ := next_of_cons htokens
      rw [hts, hending, List.getElem?_cons_succ, List.length_cons]
      simp only [Nat.add_right_cancel_iff]

theorem next_advance_new (f : Text) (k : Nat) : ((new f).advance k).next.1 = answerAt f k := by
  have htokens : (scan (new f).rest).tokens = (scan f).tokens := rfl
  rw [next_advance, ending_new, answerAt, htokens]
  cases (scan f).tokens[k]? with
  | some t => rfl
  | none =>
    by_cases hk : k = (scan f).tokens.length
    · simp only [hk, true_and, if_true]
    · simp only [hk, false_and, if_false]

end Scanner

namespace Session

open Scanner (answerAt)

/-- Whether a request is for a new scanner. -/
def Request.isStart : Request → Bool
  | .start _ => true
  | .next _ => false

/-- How many scanners are made in the course of requests. -/
def made (rs : List Request) : Nat := rs.countP Request.isStart

/-- The session after it has served requests. -/
def after (s : Session) (rs : List Request) : Session := rs.foldl (fun s r => (s.serve r).2) s

/-- The reply to a request is the one that the session gives after all requests before. -/
theorem getElem?_run (s : Session) (past rest : List Request) (r : Request) :
    (run s (past ++ r :: rest))[past.length]? = some ((after s past).serve r).1 := by
  induction past generalizing s with
  | nil => rfl
  | cons q past ih => exact ih (s.serve q).2

/-- A request makes at most one scanner. -/
theorem length_serve (s : Session) (r : Request) :
    (s.serve r).2.length = s.length + made [r] := by
  cases r with
  | start f => simp [serve, made, Request.isStart]
  | next j =>
    rw [serve]
    split <;> simp [made, Request.isStart]

/-- A session has all the scanners that have been made. -/
theorem length_after (s : Session) (rs : List Request) :
    (after s rs).length = s.length + made rs := by
  induction rs generalizing s with
  | nil => rfl
  | cons r rs ih =>
    have hmade : made ([r] ++ rs) = made [r] + made rs := List.countP_append
    rw [List.singleton_append] at hmade
    rw [hmade, ← Nat.add_assoc, ← length_serve]
    exact ih (s.serve r).2

/-- A request moves on the scanner that it is for, and leaves every other one as it is. -/
theorem getElem?_serve {s : Session} {i : Nat} {scanner : Scanner} (h : s[i]? = some scanner)
    (r : Request) :
    (s.serve r).2[i]? = some (if r = .next i then scanner.next.2 else scanner) := by
  obtain ⟨hi, -⟩ := List.getElem?_eq_some_iff.mp h
  cases r with
  | start f =>
    rw [serve, List.getElem?_append_left hi, h, if_neg Request.noConfusion]
  | next j =>
    by_cases hj : j = i
    · subst hj
      rw [serve, h, if_pos rfl]
      exact List.getElem?_set_self hi
    · rw [if_neg fun hr => hj (Request.next.inj hr), serve]
      split
      next => rw [List.getElem?_set_ne hj, h]
      next => exact h

/-- In the course of requests a scanner is moved on as often as it is asked. -/
theorem getElem?_after {s : Session} {i : Nat} {scanner : Scanner} (h : s[i]? = some scanner)
    (rs : List Request) :
    (after s rs)[i]? = some (scanner.advance (rs.count (.next i))) := by
  induction rs generalizing s scanner with
  | nil => exact h
  | cons r rs ih =>
    have hrs := ih (getElem?_serve h r)
    rw [List.count_cons]
    by_cases hr : r = .next i
    · rw [if_pos hr] at hrs
      rw [if_pos (beq_iff_eq.mpr hr)]
      exact hrs
    · rw [if_neg hr] at hrs
      rw [if_neg (mt beq_iff_eq.mp hr)]
      exact hrs

/-- A scanner that has been made for a format answers as often as it has been asked since. -/
theorem serve_next_after (before since : List Request) (f : Text) :
    ((after [] (before ++ .start f :: since)).serve (.next (made before))).1 =
      .answer (answerAt f (since.count (.next (made before)))) := by
  have hlength : (after [] before).length = made before := by
    rw [length_after, List.length_nil, Nat.zero_add]
  have hnew : (after [] (before ++ [.start f]))[made before]? = some (.new f) := by
    rw [after, List.foldl_append, ← after, ← hlength]
    exact List.getElem?_concat_length
  have hscanner := getElem?_after hnew since
  have happend : after [] (before ++ .start f :: since) =
      after (after [] (before ++ [.start f])) since := by
    rw [after, after, after, ← List.foldl_append, List.append_assoc]
    rfl
  rw [serve, happend, hscanner, ← Scanner.next_advance_new]

/-- A scanner can be made for any format, also a malformed one. What it answers later is told by this
format and by how often it has been asked since then, whatever has been asked of others: it is the
answer that it gives if it is alone. -/
theorem answers_independent (before since rest : List Request) (f : Text) :
    (run [] (before ++ .start f :: rest))[before.length]? = some (.started (made before)) ∧
      (run [] ((before ++ .start f :: since) ++ .next (made before) :: rest))[
          (before ++ .start f :: since).length]? =
        some (.answer (answerAt f (since.count (.next (made before))))) ∧
      ∀ k, (run [] (.start f :: List.replicate (k + 1) (.next 0)))[k + 1]? =
        some (.answer (answerAt f k)) := by
  refine ⟨?_, ?_, fun k => ?_⟩
  · rw [getElem?_run, serve, length_after, List.length_nil, Nat.zero_add]
  · rw [getElem?_run, serve_next_after]
  · have halone := getElem?_run [] (.start f :: List.replicate k (.next 0)) [] (.next 0)
    have hanswer := serve_next_after [] (List.replicate k (.next 0)) f
    have hmade : made [] = 0 := rfl
    rw [hmade, List.count_replicate_self, List.nil_append] at hanswer
    rw [hanswer, List.length_cons, List.length_replicate, List.cons_append,
      ← List.replicate_succ'] at halone
    exact halone

/-- A failure is told once, when it is reached, and only to the one who asks for it. -/
example :
    run [] [.start ['a', '%'], .start ['%', 's'], .next 0, .next 1, .next 0, .next 0, .next 1] =
      [.started 0, .started 1, .answer (.token (.literal 'a')),
        .answer (.token (.placeholder 's')), .answer (.failed (.malformedFormat ['a', '%'])),
        .answer .done, .answer .done] := by
  decide

end Session

end CaseFiles
