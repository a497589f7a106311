/-
  Reckoner.Proofs.Evaluated — the values of texts made of expressions.

  If what is left to read begins with an expression that has a value, that value is the next one,
  and what follows the expression is left. So a text that is one expression has one value, and a
  text of expressions with an equals sign before each has theirs.

  - `nextValue_of_expression`: the step.
  - `values_leading`: the values of a desk are those before the first statement that has none.
  - `evaluate_expression`, `evaluate_marked`: whole texts.
-/

import Reckoner.Proofs.Answers
import Reckoner.Proofs.Encoded
import Reckoner.Proofs.Lockstep

namespace Reckoner

open Scanner Grammar

/-! ## First tokens -/

namespace Grammar

theorem Primary.first_plain (p : Primary) : ∃ t ts, p.yield = t :: ts ∧ (Lexeme.token t).Plain := by
  cases p <;> exact ⟨_, _, rfl, by simp, by simp, by simp, by simp⟩

theorem Expression.first_plain (e : Expression) : ∃ t ts, e.yield = t :: ts ∧ (Lexeme.token t).Plain := by
  obtain ⟨⟨p, ps⟩, ss⟩ := e
  obtain ⟨t, ts, h, ht⟩ := p.first_plain
  refine ⟨t, ts ++ ps.yield ++ ss.yield, ?_, ht⟩
  rw [Expression.yield, Term.yield, h]
  rfl

end Grammar

/-- All that is left to read; when that is nothing, the end of the input may wait to be read again. -/
structure Scanner.Remains (ls : List Lexeme) (s : Scanner) : Prop where
  unbroken : s.Unbroken
  lexemes : s.lexemes = ls ∨ ls = [] ∧ s.lexemes = [.token .endOfInput]

namespace Scanner

/-- The token in front is put back. -/
theorem remains_hold {s : Scanner} (h : s.Unbroken) (hs : s.held = none) {ls : List Lexeme} {t : Token}
    (hf : front? ls = some t) (hl : s.lexemes = ls.tail) : ({ s with held := some t } : Scanner).Remains ls := by
  refine ⟨h, ?_⟩
  rw [lexemes_hold hs, hl]
  match ls, hf with
  | [], hf =>
    obtain rfl := Option.some.inj hf
    exact .inr ⟨rfl, rfl⟩
  | .token u :: rest, hf =>
    obtain rfl := Option.some.inj hf
    exact .inl rfl

end Scanner

namespace Desk

variable {d : Desk} {ls rest : List Lexeme}

/-! ## One statement -/

theorem nextValue_of_plain {s : Scanner} {t : Token} (hn : d.scanner.next = (.ok t, s)) (ht : (Lexeme.token t).Plain) :
    let a := Calculation.run d.bindings .expression .start { s with held := some t }
    d.nextValue = (a.1.map some, { d with scanner := a.2 }) := by
  have hs := held_next d.scanner
  rw [hn] at hs
  have hf := firstToken_of_token hn
  rw [if_neg fun he => ht.1 (congrArg Lexeme.token he)] at hf
  have hq : ¬ (t = .keyword .exit ∨ t = .endOfInput) := by
    rintro (rfl | rfl)
    · exact ht.2.2.1 rfl
    · exact ht.2.2.2 rfl
  rw [nextValue_of_token hf hq, statement_of_token (next_hold hs t) fun he => ht.2.1 (congrArg Lexeme.token he),
    calculate_eq_run]

/-- An equals sign in front of a statement is passed over. -/
theorem nextValue_of_equals (hu : d.scanner.Unbroken) (hl : d.scanner.lexemes = .token (.symbol .equals) :: rest) :
    d.nextValue = nextValue { d with scanner := d.scanner.next.2 } := by
  obtain ⟨hn, -, -⟩ := next_of_lexemes hu hl
  have hf := firstToken_of_token hn
  rw [if_pos rfl] at hf
  rw [nextValue, nextValue, hf]

/-- An expression has its value, and what follows it is left. -/
theorem nextValue_of_expression (hu : d.scanner.Unbroken) {e : Expression} {v : Binary64}
    (hl : d.scanner.lexemes = e.yield.map .token ++ rest) (hv : e.value d.bindings = .ok v)
    (hends : ∃ t, front? rest = some t ∧ t ∉ operators) :
    ∃ s, d.nextValue = (.ok (some v), { d with scanner := s }) ∧ s.Remains rest := by
  obtain ⟨t, ts, hy, ht⟩ := e.first_plain
  obtain ⟨u, hfront, hop⟩ := hends
  have hl' : d.scanner.lexemes = .token t :: (ts.map .token ++ rest) := by
    rw [hl, hy]
    rfl
  obtain ⟨hn, hu', hls⟩ := next_of_lexemes hu hl'
  have hheld := held_next d.scanner
  have hnext := nextValue_of_plain hn ht
  generalize hs : ({ d.scanner.next.2 with held := some t } : Scanner) = s at hnext
  have hback : s.lexemes = e.yield.map .token ++ rest := by
    rw [← hs, lexemes_hold hheld, hls, hy]
    rfl
  have hus : s.Unbroken := hs ▸ hu'
  rw [Calculation.run_expression hv hus hback hfront hop] at hnext
  refine ⟨_, hnext, remains_hold (unbroken_after hus _) ?_ hfront ?_⟩
  · rw [after_succ]
    exact held_next _
  · rw [lexemes_after hus, hback, ← List.drop_drop, List.drop_left' (by simp), List.drop_one]

/-- At the end of the input there is no further value. -/
theorem nextValue_of_nothing (h : d.scanner.Remains []) : ∃ after, d.nextValue = (.ok none, after) := by
  have hn : d.scanner.next.1 = .ok .endOfInput := by
    refine (next_eq_ok_iff h.unbroken).mpr ?_
    rcases h.lexemes with hl | ⟨-, hl⟩ <;> (rw [hl]; rfl)
  have hf := firstToken_of_token (Prod.ext hn rfl)
  rw [if_neg nofun] at hf
  exact ⟨_, nextValue_of_end hf (.inr rfl)⟩

/-! ## All values -/

theorem values_eq (d : Desk) :
    d.values =
      match d.nextValue with
      | (.error f, _) => .error f
      | (.ok none, _) => .ok []
      | (.ok (some v), after) => after.values.map (v :: ·) := by
  rw [values]
  split <;> simp only [*]

/-- The values up to the first statement that has none, and the desk that comes to it. -/
def leading (d : Desk) : List Binary64 × Desk :=
  match _h : d.nextValue with
  | (.ok (some v), after) =>
    let (vs, last) := leading after
    (v :: vs, last)
  | _ => ([], d)
  termination_by d.unread
  decreasing_by
    have hlt := unread_nextValue_lt (d := d) (by rw [_h]; exact nofun)
    rwa [_h] at hlt

theorem leading_of_value {v : Binary64} {after : Desk} (h : d.nextValue = (.ok (some v), after)) :
    d.leading = (v :: after.leading.1, after.leading.2) := by
  rw [leading]
  split
  · rename_i hn
    rw [h] at hn
    cases hn
    rfl
  · rename_i hn
    exact absurd h (hn v after)

theorem leading_of_error {f : Failure} {after : Desk} (h : d.nextValue = (.error f, after)) : d.leading = ([], d) := by
  rw [leading]
  split
  · rename_i hn
    rw [h] at hn
    cases hn
  · rfl

theorem leading_of_end {after : Desk} (h : d.nextValue = (.ok none, after)) : d.leading = ([], d) := by
  rw [leading]
  split
  · rename_i hn
    rw [h] at hn
    cases hn
  · rfl

/-- All values are the leading ones, if the statement behind them is not mistaken but missing. -/
theorem values_leading (d : Desk) : d.values = d.leading.2.nextValue.1.map fun _ => d.leading.1 := by
  fun_induction values d with
  | case1 d f after hn =>
    rw [leading_of_error hn, hn]
    rfl
  | case2 d after hn =>
    rw [leading_of_end hn, hn]
    rfl
  | case3 d v after hn ih =>
    rw [leading_of_value hn, ih]
    rcases after.leading.2.nextValue.1 with f | w <;> rfl

theorem leading_of_ok {vs : List Binary64} (h : d.values = .ok vs) : d.leading.1 = vs := by
  rw [values_leading] at h
  rcases hn : d.leading.2.nextValue.1 with f | v
  · rw [hn] at h
    cases h
  · rw [hn] at h
    exact Except.ok.inj h

/-- Where every statement has a value, the answers are these. -/
theorem answers_of_values {vs : List Binary64} (h : d.values = .ok vs) : d.answers = vs.map .ok := by
  fun_induction values d generalizing vs with
  | case1 d f after hn => cases h
  | case2 d after hn =>
    obtain rfl := Except.ok.inj h
    exact answers_of_end hn
  | case3 d v after hn ih =>
    rcases ha : after.values with f | ws
    · rw [ha] at h
      cases h
    · rw [ha] at h
      obtain rfl := Except.ok.inj h
      rw [answers_of_value hn, ih ha, List.map_cons]

/-- Expressions, with an equals sign before each. -/
def marked (es : List Expression) : List Lexeme :=
  es.flatMap fun e => .token (.symbol .equals) :: e.yield.map .token

theorem front?_marked (es : List Expression) : ∃ t, front? (marked es) = some t ∧ t ∉ operators := by
  cases es with
  | nil => exact ⟨.endOfInput, rfl, by decide⟩
  | cons e es => exact ⟨.symbol .equals, rfl, by decide⟩

theorem values_of_value {v : Binary64} {after : Desk} (h : d.nextValue = (.ok (some v), after)) :
    d.values = after.values.map (v :: ·) := by
  rw [values_eq, h]

theorem values_of_nothing (h : d.scanner.Remains []) : d.values = .ok [] := by
  obtain ⟨after, hn⟩ := nextValue_of_nothing h
  rw [values_eq, hn]

theorem values_marked {es : List Expression} {vs : List Binary64} (h : d.scanner.Remains (marked es))
    (hv : es.map (·.value d.bindings) = vs.map .ok) : d.values = .ok vs := by
  induction es generalizing d vs with
  | nil =>
    obtain rfl := List.map_eq_nil_iff.mp hv.symm
    exact values_of_nothing h
  | cons e es ih =>
    obtain ⟨v, ws, rfl, he, hes⟩ := List.map_eq_cons_iff.mp hv.symm
    have hl : d.scanner.lexemes = .token (.symbol .equals) :: (e.yield.map .token ++ marked es) :=
      h.lexemes.resolve_right fun hn => nomatch hn.1
    obtain ⟨-, hu, hls⟩ := next_of_lexemes h.unbroken hl
    obtain ⟨s, hn, hs⟩ := nextValue_of_expression (d := { d with scanner := d.scanner.next.2 }) hu hls he.symm
      (front?_marked es)
    have hrest := ih (d := { d with scanner := s }) hs hes.symm
    rw [values_of_value ((nextValue_of_equals h.unbroken hl).trans hn), hrest]
    rfl

end Desk

theorem remains_ofString (text : String) :
    (Scanner.ofPieces (Source.ofString text)).Remains (Lexeme.all text.toList) :=
  ⟨unbroken_ofString text, .inl (lexemes_ofString text)⟩

/-- A text that is one expression has one value. -/
theorem evaluate_expression {text : String} {e : Expression} (hl : Lexeme.all text.toList = e.yield.map .token)
    {v : Binary64} (hv : e.value .constants = .ok v) : evaluate text = .ok [v] := by
  have hlexemes : (Desk.ofPieces (Source.ofString text)).scanner.lexemes = e.yield.map .token ++ [] := by
    rw [List.append_nil, ← hl]
    exact lexemes_ofString text
  obtain ⟨s, hn, hs⟩ := Desk.nextValue_of_expression (unbroken_ofString text) hlexemes hv ⟨.endOfInput, rfl, by decide⟩
  rw [evaluate, Desk.values_of_value hn, Desk.values_of_nothing hs]
  rfl

/-- A text of expressions, with an equals sign before each, has their values. -/
theorem evaluate_marked {text : String} {es : List Expression} (hl : Lexeme.all text.toList = Desk.marked es)
    {vs : List Binary64} (hv : es.map (·.value .constants) = vs.map .ok) : evaluate text = .ok vs :=
  Desk.values_marked (hl ▸ remains_ofString text) hv

end Reckoner
