/-
  Reckoner.Calculation.Run — a calculation from any of its states.

  Tokens are read one by one until the calculation is over. Every token that does not end it
  leaves less to read, so that it always ends. From the start, a run is the production of its level
  (`ofLevel_eq_run`).
-/

import Reckoner.Calculation.Step

namespace Reckoner.Calculation

/-- The end of a calculation at token `t`, which is put back if it was not used up. -/
def finish (result : Except Mistake Binary64) (left : Bool) (t : Token) (s : Scanner) :
    Except Failure Binary64 × Scanner :=
  let outcome := result.mapError (.mistake s.line)
  if left then
    match s.putBack t with
    | (.ok (), s) => (outcome, s)
    | (.error f, s) => (.error f, s)
  else (outcome, s)

/-- Goes on with a calculation from `state`. -/
def run (b : Bindings) (level : Level) (state : State) (s : Scanner) : Except Failure Binary64 × Scanner :=
  match _h : s.next with
  | (.error f, s) => (.error f, s)
  | (.ok t, after) =>
    match _hs : step b level state t with
    | .more state => run b level state after
    | .stop result left => finish result left t after
  termination_by s.unread
  decreasing_by
    have ht : t ≠ .endOfInput := by
      rintro rfl
      exact step_endOfInput _ _ _ _ _hs
    have := Scanner.unread_next_lt (s := s) (by rw [_h]; exact ht)
    rwa [_h] at this

variable {b : Bindings} {level : Level}

/-- What a token that is read makes of a calculation. -/
theorem run_of_next {state : State} {s after : Scanner} {t : Token} (h : s.next = (.ok t, after)) :
    run b level state s =
      match step b level state t with
      | .more next => run b level next after
      | .stop result left => finish result left t after := by
  rw [run]
  split
  · rename_i hn
    rw [h] at hn
    cases hn
  · rename_i u after' hn
    rw [h] at hn
    cases hn
    split
    · rename_i hs
      rw [hs]
    · rename_i hs
      rw [hs]

theorem run_of_error {state : State} {s after : Scanner} {f : Failure} (h : s.next = (.error f, after)) :
    run b level state s = (.error f, after) := by
  rw [run]
  split
  · rename_i hn
    rw [h] at hn
    cases hn
    rfl
  · rename_i hn
    rw [h] at hn
    cases hn

/-- A token that is left is put back. -/
theorem finish_left {s : Scanner} (hs : s.held = none) (r : Except Mistake Binary64) (t : Token) :
    finish r true t s = (r.mapError (.mistake s.line), { s with held := some t }) := by
  simp only [finish, if_true, Scanner.putBack_of_held_none hs]

theorem finish_used (r : Except Mistake Binary64) (t : Token) (s : Scanner) :
    finish r false t s = (r.mapError (.mistake s.line), s) := rfl

theorem complete_left {p : Pending} {outer : Enclosing} {v : Binary64}
    {result : Except Mistake Binary64} {left : Bool} (h : complete level p outer v = .stop result left) :
    left = false := by
  unfold complete at h
  grind [Step.fail]

end Reckoner.Calculation
