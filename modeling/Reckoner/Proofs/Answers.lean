/-
  Reckoner.Proofs.Answers — what a run writes, answer by answer.

  Every statement of a run comes to an answer, a value or a mistake. With sinks that work a run
  writes the values as they are printed, one after another, and a line for every mistake.

  - `run_answers`: the text and the number of error lines of a run, from the answers at its desk.
-/

import Reckoner.Proofs.Ending

namespace Reckoner

variable {reads : List Read}

/-! ## Answers -/

namespace Desk

/-- Behind the next equals sign, where statements go on after a mistake. -/
def startOver (d : Desk) : Desk := { d with scanner := (d.scanner.skipPast Symbol.equals.char).2 }

theorem unread_startOver_le (d : Desk) : d.startOver.unread ≤ d.unread := Scanner.unread_skipPast_le _ _

/-- What the statements come to, up to `exit` or the end of the input. -/
def answers (d : Desk) : List (Except Mistake Binary64) :=
  match _h : d.nextValue with
  | (.ok (some v), after) => .ok v :: answers after
  | (.error (.mistake _ m), after) => .error m :: answers after.startOver
  | _ => []
  termination_by d.unread
  decreasing_by
    · have hlt := unread_nextValue_lt (d := d) (by rw [_h]; exact nofun)
      rwa [_h] at hlt
    · have hlt := unread_nextValue_lt (d := d) (by rw [_h]; exact rfl)
      rw [_h] at hlt
      exact Nat.lt_of_le_of_lt (unread_startOver_le _) hlt

/-- The values among the answers, with nothing in the place of a mistake. -/
def results (d : Desk) : List (Option Binary64) := d.answers.map Except.toOption

variable {d after : Desk}

theorem answers_eq (d : Desk) :
    d.answers =
      match d.nextValue with
      | (.ok (some v), after) => .ok v :: after.answers
      | (.error (.mistake _ m), after) => .error m :: after.startOver.answers
      | _ => [] := by
  rw [answers]
  split <;> simp only [*]

theorem answers_of_end (h : d.nextValue = (.ok none, after)) : d.answers = [] := by
  rw [answers_eq, h]

theorem answers_of_value {v : Binary64} (h : d.nextValue = (.ok (some v), after)) :
    d.answers = .ok v :: after.answers := by
  rw [answers_eq, h]

theorem answers_of_mistake {line : Nat} {m : Mistake} (h : d.nextValue = (.error (.mistake line m), after)) :
    d.answers = .error m :: after.startOver.answers := by
  rw [answers_eq, h]

theorem results_of_end (h : d.nextValue = (.ok none, after)) : d.results = [] := by
  rw [results, answers_of_end h]
  rfl

theorem results_of_value {v : Binary64} (h : d.nextValue = (.ok (some v), after)) :
    d.results = some v :: after.results := by
  rw [results, answers_of_value h]
  rfl

theorem results_of_mistake {line : Nat} {m : Mistake} (h : d.nextValue = (.error (.mistake line m), after)) :
    d.results = none :: after.startOver.results := by
  rw [results, answers_of_mistake h]
  rfl

end Desk

/-! ## Runs -/

namespace Session

/-- The lines that print `values`. -/
def printed (precision : Nat) (values : List Binary64) : String :=
  String.join (values.filterMap fun v => (resultLine? precision v).map (· ++ "\n"))

theorem printed_append (precision : Nat) (vs ws : List Binary64) :
    printed precision (vs ++ ws) = printed precision vs ++ printed precision ws := by
  rw [printed, List.filterMap_append, String.join_append]
  rfl

theorem printed_cons {precision : Nat} {v : Binary64} {line : String} (h : resultLine? precision v = some line)
    (vs : List Binary64) : printed precision (v :: vs) = line ++ "\n" ++ printed precision vs := by
  rw [printed, List.filterMap_cons, h]
  exact String.join_cons

/-- Up to `maxPrecision` every value has its line. -/
theorem resultLine?_isSome {precision : Nat} (hp : precision ≤ maxPrecision) (v : Binary64) :
    ∃ text, v.generalText? precision = some text ∧ resultLine? precision v = some ("=" ++ text) := by
  obtain ⟨text, ht⟩ := Binary64.generalText?_isSome hp v
  exact ⟨text, ht, by rw [resultLine?, ht]; rfl⟩

variable {s : Session} {after : Desk}

theorem turn_of_end (h : s.desk.nextValue = (.ok none, after)) :
    s.turn = (some ({ s with desk := after } : Session).close, { s with desk := after }) := by
  rw [turn, nextValue, h]

theorem turn_of_value {v : Binary64} (h : s.desk.nextValue = (.ok (some v), after)) :
    s.turn = ({ s with desk := after } : Session).printValue v := by
  rw [turn, nextValue, h]

theorem turn_of_mistake {line : Nat} {m : Mistake} (h : s.desk.nextValue = (.error (.mistake line m), after)) :
    s.turn = ({ s with desk := after } : Session).recover (.mistake line m) := by
  rw [turn, nextValue, h]
  rfl

/-- Printing a value writes one line. -/
theorem printValue_steady (h : Steady reads s) (v : Binary64) :
    (s.printValue v).2.out.text = s.out.text ++ printed s.precision [v] ∧
      (s.printValue v).2.precision = s.precision ∧ (s.printValue v).2.desk = s.desk ∧
        (s.printValue v).2.err = s.err := by
  obtain ⟨text, -, hline⟩ := resultLine?_isSome h.precision v
  have hprinted : printed s.precision [v] = "=" ++ text ++ "\n" := (printed_cons hline []).trans (String.append_empty)
  rw [printValue, hline, hprinted]
  dsimp only
  rw [Sink.writeLine_of_works h.out]
  exact ⟨rfl, rfl, rfl, rfl⟩

/-- Recovering writes one line, and starts over behind the next equals sign. -/
theorem recover_steady (hr : AllLines reads) (h : Steady reads s) (line : Nat) {m : Mistake} (hm : m.Spelled) :
    (s.recover (.mistake line m)).2.out = s.out ∧ (s.recover (.mistake line m)).2.precision = s.precision ∧
      (s.recover (.mistake line m)).2.desk = s.desk.startOver ∧
        (s.recover (.mistake line m)).2.err.lines = s.err.lines + 1 := by
  have hout : (s.recover (.mistake line m)).2.out = s.out ∧
      (s.recover (.mistake line m)).2.precision = s.precision ∧
        (s.recover (.mistake line m)).2.desk = s.desk.startOver := by
    rw [recover, Sink.writeLine_of_works h.err]
    exact ⟨rfl, rfl, rfl⟩
  have hl := (wrote_recover hr h line hm).lines
  rw [lines, lines, hout.1] at hl
  exact ⟨hout.1, hout.2.1, hout.2.2, by omega⟩

/-- A run finishes, and writes the values of its desk and a line for every mistake. -/
theorem run_answers (hr : AllLines reads) (h : Steady reads s) :
    s.run.2.out.text = s.out.text ++ printed s.precision (s.desk.results.filterMap id) ∧
      s.run.2.err.lines = s.err.lines + s.desk.results.count none := by
  generalize hd : s.desk = d
  fun_induction Desk.answers d generalizing s with
  | case1 d v after hn ih =>
    subst hd
    have hs : Steady reads { s with desk := after } := by
      have ho := Desk.outcome_nextValue h.kept
      rw [hn] at ho
      exact ⟨ho.kept, h.precision, h.out, h.err⟩
    have hw := wrote_printValue hs v
    obtain ⟨hout, hp, hdesk, herr⟩ := printValue_steady hs v
    rw [← turn_of_value hn] at hw hout hp hdesk herr
    obtain ⟨hout', herr'⟩ := ih hw.steady hdesk
    rw [run_of_goes hw.goes, hout', herr', hout, hp, herr, Desk.results_of_value hn]
    refine ⟨?_, (congrArg (s.err.lines + ·) (List.count_cons_of_ne (by simp))).symm⟩
    have hcons : (some v :: after.results).filterMap id = [v] ++ after.results.filterMap id := rfl
    rw [hcons, printed_append, ← String.append_assoc]
  | case2 d line m after hn ih =>
    subst hd
    have ho := Desk.outcome_nextValue h.kept
    rw [hn] at ho
    have hs : Steady reads { s with desk := after } := ⟨ho.kept, h.precision, h.out, h.err⟩
    have hm : m.Spelled := (ho.failure _ rfl).1
    have hw := wrote_recover hr hs line hm
    obtain ⟨hout, hp, hdesk, herr⟩ := recover_steady hr hs line hm
    rw [← turn_of_mistake hn] at hw hout hp hdesk herr
    obtain ⟨hout', herr'⟩ := ih hw.steady hdesk
    rw [run_of_goes hw.goes, hout', herr', hout, hp, herr, Desk.results_of_mistake hn]
    refine ⟨rfl, ?_⟩
    rw [List.count_cons_self, Nat.add_assoc, Nat.add_comm 1]
  | case3 d hvalue hmistake =>
    subst hd
    have ho := Desk.outcome_nextValue h.kept
    rcases hn : s.desk.nextValue with ⟨f | _ | v, after⟩
    · rw [hn] at ho
      obtain ⟨line, m, rfl, -⟩ := (ho.failure f rfl).1.mistake hr
      exact absurd hn (hmistake line m after)
    · rw [run_of_end (congrArg Prod.fst (turn_of_end hn)), turn_of_end hn, Desk.results_of_end hn]
      exact ⟨(String.append_empty).symm, rfl⟩
    · exact absurd hn (hvalue v after)

end Session

end Reckoner
