/-
  Reckoner.Proofs.InStep — two desks in step.

  A statement sees of its scanner the tokens it gives and, in a mistake, the line. So if two
  scanners answer alike whenever they are asked, two desks with the same variables do. How such
  scanners are related, and what is alike about their failures, is left open here.

  - `run_inStep`: calculations on two scanners in step.
  - `nextValue_inStep`: statements at two desks in step.
-/

import Reckoner.Proofs.Lockstep

namespace Reckoner

open Scanner

/-- The same value from two states, or a failure from each, and the states behind them related. -/
inductive After {α σ : Type} (fails : Failure → Failure → Prop) (R : σ → σ → Prop) :
    Except Failure α × σ → Except Failure α × σ → Prop
  | ok (v : α) {s t : σ} (h : R s t) : After fails R (.ok v, s) (.ok v, t)
  | error {f g : Failure} (hf : fails f g) {s t : σ} (h : R s t) : After fails R (.error f, s) (.error g, t)

/-- Scanners that `R` relates answer alike, and `S` relates them then. A token that was answered may
    be put back, and a mistake may be noticed, by both. -/
structure InStep (fails : Failure → Failure → Prop) (R S : Scanner → Scanner → Prop) : Prop where
  next : ∀ {s t}, R s t → After fails S s.next t.next
  again : ∀ {s t}, S s t → R s t
  hold : ∀ {s t}, S s t → s.held = none → t.held = none → ∀ u : Token,
    S { s with held := some u } { t with held := some u }
  mistake : ∀ {s t}, S s t → ∀ m, fails (.mistake s.line m) (.mistake t.line m)

/-- A token from both, or a failure from both. -/
inductive NextInStep (fails : Failure → Failure → Prop) (S : Scanner → Scanner → Prop) (s t : Scanner) : Prop
  | token (u : Token) (s' t' : Scanner) (next : s.next = (.ok u, s')) (next' : t.next = (.ok u, t')) (h : S s' t')
    (back : S { s' with held := some u } { t' with held := some u })
  | failed (f g : Failure) (s' t' : Scanner) (next : s.next = (.error f, s')) (next' : t.next = (.error g, t'))
    (hf : fails f g) (h : S s' t')

variable {fails : Failure → Failure → Prop} {R S : Scanner → Scanner → Prop} (step : InStep fails R S)
include step

theorem InStep.cases {s t : Scanner} (h : R s t) : NextInStep fails S s t := by
  have hn := step.next h
  have hs := held_next s
  have ht := held_next t
  generalize hs' : s.next = a at hn hs
  generalize ht' : t.next = b at hn ht
  cases hn with
  | ok u h => exact .token u _ _ hs' ht' h (step.hold h hs ht u)
  | error hf h => exact .failed _ _ _ _ hs' ht' hf h

/-! ## Calculations -/

namespace Calculation

variable {b : Bindings} {level : Level} {s t : Scanner}

theorem finish_inStep (h : S s t) (hs : s.held = none) (ht : t.held = none) (r : Except Mistake Binary64)
    (left : Bool) (u : Token) : After fails S (finish r left u s) (finish r left u t) := by
  have hfinished {s' t' : Scanner} (h' : S s' t') :
      After fails S (r.mapError (.mistake s.line), s') (r.mapError (.mistake t.line), t') := by
    cases r with
    | ok v => exact .ok v h'
    | error m => exact .error (step.mistake h m) h'
  cases left with
  | false =>
    rw [finish_used, finish_used]
    exact hfinished h
  | true =>
    rw [finish_left hs, finish_left ht]
    exact hfinished (step.hold h hs ht u)

variable (b level) in
theorem run_inStep (state : State) (h : R s t) :
    After fails S (run b level state s) (run b level state t) := by
  fun_induction run b level state s generalizing t with
  | case1 state s f after hn =>
    cases step.cases h with
    | token u s' t' next next' h back => cases hn.symm.trans next
    | failed f' g s' t' next next' hf h =>
      cases hn.symm.trans next
      rw [run_of_error next']
      exact .error hf h
  | case2 state s u after hn more hs ih =>
    cases step.cases h with
    | token u' s' t' next next' h back =>
      cases hn.symm.trans next
      rw [run_of_next next', hs]
      exact ih (step.again h)
    | failed f g s' t' next next' hf h => cases hn.symm.trans next
  | case3 state s u after hn result left hs =>
    have hheld := held_next s
    have hheld' := held_next t
    cases step.cases h with
    | token u' s' t' next next' h back =>
      cases hn.symm.trans next
      rw [next] at hheld
      rw [next'] at hheld'
      rw [run_of_next next', hs]
      exact finish_inStep step h hheld hheld' result left u
    | failed f g s' t' next next' hf h => cases hn.symm.trans next

end Calculation

/-! ## Desks -/

namespace Desk

/-- Two desks with related scanners and the same variables. -/
structure Paired (R : Scanner → Scanner → Prop) (d e : Desk) : Prop where
  scanner : R d.scanner e.scanner
  bindings : e.bindings = d.bindings

variable {d e : Desk}

omit step in
theorem Paired.withScanners {s t : Scanner} (h : Paired R d e) (hs : S s t) :
    Paired S { d with scanner := s } { e with scanner := t } := ⟨hs, h.bindings⟩

theorem Paired.again (h : Paired S d e) : Paired R d e := ⟨step.again h.scanner, h.bindings⟩

theorem calculate_inStep (h : Paired R d e) (level : Calculation.Level) :
    After fails (Paired S) (d.calculate level) (e.calculate level) := by
  have hr := Calculation.run_inStep step d.bindings level .start h.scanner
  rw [calculate_eq_run, calculate_eq_run, h.bindings]
  generalize Calculation.run d.bindings level .start d.scanner = a at hr
  generalize Calculation.run d.bindings level .start e.scanner = b at hr
  cases hr with
  | ok v hs => exact .ok v ⟨hs, rfl⟩
  | error hf hs => exact .error hf ⟨hs, rfl⟩

theorem bindTo_inStep (h : Paired R d e) (name : String) :
    After fails (Paired S) (d.bindTo name) (e.bindTo name) := by
  have hc := calculate_inStep step h .expression
  generalize hd : d.calculate .expression = a at hc
  generalize he : e.calculate .expression = b at hc
  cases hc with
  | ok v hs =>
    rw [bindTo_of_ok hd, bindTo_of_ok he, h.bindings]
    split
    · exact .error (step.mistake hs.scanner _) hs
    · exact .ok v ⟨hs.scanner, rfl⟩
  | error hf hs =>
    rw [bindTo_of_error hd, bindTo_of_error he]
    exact .error hf hs

theorem declaration_inStep (h : Paired R d e) : After fails (Paired S) d.declaration e.declaration := by
  cases step.cases h.scanner with
  | failed f g s t next next' hf hs =>
    rw [declaration, declaration, next, next']
    exact .error hf (h.withScanners hs)
  | token u s t next next' hs back =>
    rw [declaration, declaration, next, next']
    cases u with
    | name name =>
      dsimp only
      cases step.cases (step.again hs) with
      | failed f g s₂ t₂ next₂ next₂' hf hs₂ =>
        rw [next₂, next₂']
        exact .error hf (h.withScanners hs₂)
      | token w s₂ t₂ next₂ next₂' hs₂ back₂ =>
        rw [next₂, next₂']
        dsimp only
        split
        · exact bindTo_inStep step ((h.withScanners hs₂).again step) name
        · exact .error (step.mistake hs₂ _) (h.withScanners hs₂)
    | _ => exact .error (step.mistake hs _) (h.withScanners hs)

theorem statement_inStep (h : Paired R d e) : After fails (Paired S) d.statement e.statement := by
  cases step.cases h.scanner with
  | failed f g s t next next' hf hs =>
    rw [statement_of_error next, statement_of_error next']
    exact .error hf (h.withScanners hs)
  | token u s t next next' hs back =>
    by_cases hu : u = .keyword .declare
    · subst hu
      rw [statement_of_declare next, statement_of_declare next']
      exact declaration_inStep step ((h.withScanners hs).again step)
    · rw [statement_of_token next hu, statement_of_token next' hu]
      exact calculate_inStep step ((h.withScanners back).again step) _

theorem firstToken_inStep {s t : Scanner} (h : R s t) : After fails S (firstToken s) (firstToken t) := by
  fun_induction firstToken s generalizing t with
  | case1 s f after hn =>
    cases step.cases h with
    | token u s' t' next next' h back => cases hn.symm.trans next
    | failed f' g s' t' next next' hf h =>
      cases hn.symm.trans next
      rw [firstToken_of_error next']
      exact .error hf h
  | case2 s after hn ih =>
    cases step.cases h with
    | token u s' t' next next' h back =>
      cases hn.symm.trans next
      rw [firstToken_of_token next', if_pos rfl]
      exact ih (step.again h)
    | failed f g s' t' next next' hf h => cases hn.symm.trans next
  | case3 s u after hn hu =>
    cases step.cases h with
    | token u' s' t' next next' h back =>
      cases hn.symm.trans next
      rw [firstToken_of_token next', if_neg hu]
      exact .ok u h
    | failed f g s' t' next next' hf h => cases hn.symm.trans next

theorem nextValue_inStep (h : Paired R d e) : After fails (Paired S) d.nextValue e.nextValue := by
  have hf := firstToken_inStep step h.scanner
  have hs := held_firstToken d.scanner
  have ht := held_firstToken e.scanner
  generalize hd : firstToken d.scanner = a at hf hs
  generalize he : firstToken e.scanner = b at hf ht
  cases hf with
  | error hf h' =>
    rw [nextValue_of_error hd, nextValue_of_error he]
    exact .error hf (h.withScanners h')
  | ok u h' =>
    by_cases hq : u = .keyword .exit ∨ u = .endOfInput
    · rw [nextValue_of_end hd hq, nextValue_of_end he hq]
      exact .ok none (h.withScanners h')
    · have ha := statement_inStep step ((h.withScanners (step.hold h' hs ht u)).again step)
      rw [nextValue_of_token hd hq, nextValue_of_token he hq]
      generalize statement _ = a at ha ⊢
      generalize statement _ = b at ha ⊢
      cases ha with
      | ok v h => exact .ok (some v) h
      | error hf h => exact .error hf h

end Desk

end Reckoner
