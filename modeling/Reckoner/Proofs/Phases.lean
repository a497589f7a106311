/-
  Reckoner.Proofs.Phases — how a statement is read.

  A statement takes its tokens one by one. Between two of them it is in a phase; a token leads to
  the next phase or stops the statement, and is then used up or left to what follows. So a
  statement ends in one of two ways: where a read fails, or at the token that stops it.

  - `ended_calculate`, `ended_statement`: every calculation and every statement, whatever the
    scanner gives, ends so.
-/

import Reckoner.Proofs.Statement

namespace Reckoner

open Scanner

/-- What has been read of a statement. -/
inductive Phase where
  | start
  /-- The mark of a declaration. -/
  | declared
  /-- The mark and the name. -/
  | named (name : String)
  /-- A part of an expression, which is the value of a name or stands by itself. -/
  | within (name : Option String) (state : Calculation.State)

namespace Phase

inductive Step where
  | more (p : Phase)
  /-- The statement is over. The token that ended it was used up, or it is `left` to what follows. -/
  | stop (result : Except Mistake Binary64) (left : Bool)

/-- What an expression comes to that is the value of a name: the name must not be bound yet. -/
def bound (b : Bindings) (name : Option String) (result : Except Mistake Binary64) : Except Mistake Binary64 :=
  match name, result with
  | some n, .ok v => if b.isBound n then .error (.declaredTwice n) else .ok v
  | _, result => result

def ofStep (b : Bindings) (name : Option String) : Calculation.Step → Step
  | .more state => .more (.within name state)
  | .stop result left => .stop (bound b name result) left

def declaredStep : Token → Step
  | .name n => .more (.named n)
  | .endOfInput => .stop (.error .inputEnded) false
  | t => .stop (.error (.nameExpected t)) false

/-- What a token makes of a phase, under the variables `b`. -/
def step (b : Bindings) (level : Calculation.Level) (p : Phase) (t : Token) : Step :=
  match p with
  | .start =>
    if t = .keyword .declare then .more .declared else ofStep b none (Calculation.step b level .start t)
  | .declared => declaredStep t
  | .named n =>
    if t = .symbol .equals then .more (.within (some n) .start) else .stop (.error (.equalsMissing n)) false
  | .within name state => ofStep b name (Calculation.step b level state t)

@[simp] theorem bound_none (b : Bindings) (result : Except Mistake Binary64) : bound b none result = result := rfl

@[simp] theorem bound_error (b : Bindings) (name : Option String) (m : Mistake) :
    bound b name (.error m) = .error m := by cases name <;> rfl

theorem step_declare (b : Bindings) (level : Calculation.Level) :
    step b level .start (.keyword .declare) = .more .declared := by simp [step]

/-- Any other token begins an expression. -/
theorem step_start (b : Bindings) (level : Calculation.Level) {t : Token} (h : t ≠ .keyword .declare) :
    step b level .start t = step b level (.within none .start) t := by simp [step, h]

theorem ofStep_more {b : Bindings} {name : Option String} {s : Calculation.Step} {state : Calculation.State}
    (h : s = .more state) : ofStep b name s = .more (.within name state) := by rw [h]; rfl

theorem ofStep_stop {b : Bindings} {name : Option String} {s : Calculation.Step}
    {result : Except Mistake Binary64} {left : Bool} (h : s = .stop result left) :
    ofStep b name s = .stop (bound b name result) left := by rw [h]; rfl

/-- The end of the input ends a statement. -/
theorem step_endOfInput (b : Bindings) (level : Calculation.Level) (p next : Phase) :
    step b level p .endOfInput ≠ .more next := by
  have hstate (name : Option String) (state : Calculation.State) :
      ofStep b name (Calculation.step b level state .endOfInput) ≠ .more next := by
    rcases hs : Calculation.step b level state .endOfInput with state' | ⟨result, left⟩
    · exact absurd hs (Calculation.step_endOfInput _ _ _ _)
    · exact nofun
  cases p with
  | start => exact hstate none .start
  | declared => exact nofun
  | named n => exact nofun
  | within name state => exact hstate name state

end Phase

/-! ## What is reached, and how it ends -/

section

variable (b : Bindings) (level : Calculation.Level) (origin : Phase) (first : Scanner)

/-- From `origin`, with the scanner at `first`: when `w` has been read, what is read is in a phase
    and the scanner has come further. -/
inductive Reached : List Token → Phase → Scanner → Prop
  | none : Reached [] origin first
  | more {w : List Token} {p next : Phase} {s after : Scanner} {t : Token} (h : Reached w p s)
    (read : s.next = (.ok t, after)) (step : p.step b level t = .more next) : Reached (w ++ [t]) next after

/-- A failed read ends what is read, or the token that stops it does. -/
inductive Ended : Except Failure Binary64 × Scanner → Prop
  | failed {w : List Token} {p : Phase} {s after : Scanner} {f : Failure} (h : Reached b level origin first w p s)
    (read : s.next = (.error f, after)) : Ended (.error f, after)
  | stopped {w : List Token} {p : Phase} {s after : Scanner} {t : Token} {result : Except Mistake Binary64}
    {left : Bool} (h : Reached b level origin first w p s) (read : s.next = (.ok t, after))
    (step : p.step b level t = .stop result left) : Ended (Calculation.finish result left t after)

end

section

variable {b : Bindings} {level : Calculation.Level} {origin p : Phase} {first s : Scanner} {w : List Token}

/-- The scanner has been asked for the tokens that were read. -/
theorem Reached.scanner (h : Reached b level origin first w p s) : s = first.after w.length := by
  induction h with
  | none => rfl
  | more _ read _ ih =>
    rw [List.length_append, List.length_singleton, after_succ, ← ih, read]

/-- What was read were the first lexemes. -/
theorem Reached.lexemes (h : Reached b level origin first w p s) (hu : first.Unbroken) :
    first.lexemes = w.map .token ++ s.lexemes := by
  induction h with
  | none => rfl
  | @more w p next s after t h read step ih =>
    have ht : t ≠ .endOfInput := by
      rintro rfl
      exact Phase.step_endOfInput _ _ _ _ step
    have hs : s.Unbroken := h.scanner ▸ unbroken_after hu _
    have hl := lexemes_of_next hs (congrArg Prod.fst read) ht
    rw [read] at hl
    rw [ih, hl, List.map_append, List.append_assoc]
    rfl

/-- A token can be read that leads to another phase. -/
def GoesOn (b : Bindings) (level : Calculation.Level) (p : Phase) (s : Scanner) : Prop :=
  ∃ t after next, s.next = (.ok t, after) ∧ p.step b level t = .more next

theorem not_goesOn_of_error {f : Failure} {after : Scanner} (h : s.next = (.error f, after)) : ¬ GoesOn b level p s := by
  rintro ⟨t, after', next, hn, -⟩
  rw [h] at hn
  cases hn

theorem not_goesOn_of_stop {t : Token} {after : Scanner} {result : Except Mistake Binary64} {left : Bool}
    (h : s.next = (.ok t, after)) (hs : p.step b level t = .stop result left) : ¬ GoesOn b level p s := by
  rintro ⟨t', after', next, hn, hm⟩
  rw [h] at hn
  cases hn
  rw [hs] at hm
  cases hm

/-- Of two things reached from one origin, the lesser is the greater, or goes on to it. -/
theorem Reached.compare {v : List Token} {q : Phase} {u : Scanner} (h : Reached b level origin first v q u)
    (h' : Reached b level origin first w p s) (hle : v.length ≤ w.length) :
    (v = w ∧ q = p ∧ u = s) ∨ (v.length < w.length ∧ GoesOn b level q u) := by
  induction h' generalizing v q u with
  | none =>
    cases h with
    | none => exact .inl ⟨rfl, rfl, rfl⟩
    | more => simp at hle
  | @more w p next s after t h' read step ih =>
    rw [List.length_append, List.length_singleton] at hle ⊢
    rcases Nat.lt_or_eq_of_le hle with hlt | heq
    · refine .inr ⟨hlt, ?_⟩
      rcases ih h (Nat.le_of_lt_succ hlt) with ⟨rfl, rfl, rfl⟩ | ⟨-, hon⟩
      · exact ⟨t, after, next, read, step⟩
      · exact hon
    · cases h with
      | none => cases heq
      | @more v q next' u after' t' h read' step' =>
        rw [List.length_append, List.length_singleton, Nat.succ_inj] at heq
        rcases ih h (Nat.le_of_eq heq) with ⟨rfl, rfl, rfl⟩ | ⟨hlt, -⟩
        · rw [read'] at read
          cases read
          rw [step'] at step
          cases step
          exact .inl ⟨rfl, rfl, rfl⟩
        · rw [heq] at hlt
          exact absurd hlt (Nat.lt_irrefl _)

/-- What goes no further is reached in one way only. -/
theorem Reached.unique {v : List Token} {q : Phase} {u : Scanner} (h : Reached b level origin first v q u)
    (h' : Reached b level origin first w p s) (hu : ¬ GoesOn b level q u) (hs : ¬ GoesOn b level p s) :
    v = w ∧ q = p ∧ u = s := by
  rcases Nat.le_total v.length w.length with hle | hle
  · rcases h.compare h' hle with heq | ⟨-, hon⟩
    · exact heq
    · exact absurd hon hu
  · rcases h'.compare h hle with ⟨rfl, rfl, rfl⟩ | ⟨-, hon⟩
    · exact ⟨rfl, rfl, rfl⟩
    · exact absurd hon hs

/-- What is read ends at the token that stops it. -/
theorem Ended.eq_of_stop {a : Except Failure Binary64 × Scanner} (he : Ended b level origin first a)
    (h : Reached b level origin first w p s) {t : Token} {after : Scanner} (read : s.next = (.ok t, after))
    {result : Except Mistake Binary64} {left : Bool} (step : p.step b level t = .stop result left) :
    a = Calculation.finish result left t after := by
  have hs := not_goesOn_of_stop read step
  cases he with
  | failed h' read' =>
    obtain ⟨rfl, rfl, rfl⟩ := h'.unique h (not_goesOn_of_error read') hs
    rw [read] at read'
    cases read'
  | stopped h' read' step' =>
    obtain ⟨rfl, rfl, rfl⟩ := h'.unique h (not_goesOn_of_stop read' step') hs
    rw [read] at read'
    cases read'
    rw [step] at step'
    cases step'
    rfl

/-- A mistake is reported on the line where the scanner is. -/
theorem error_of_finish {result : Except Mistake Binary64} {left : Bool} {t : Token} (hs : s.held = none) {line : Nat}
    {m : Mistake} (h : (Calculation.finish result left t s).1 = .error (.mistake line m)) :
    result = .error m ∧ line = s.line := by
  have hr : result.mapError (Failure.mistake s.line) = .error (.mistake line m) := by
    cases left with
    | false => exact h
    | true =>
      rw [Calculation.finish_left hs] at h
      exact h
  cases result with
  | ok v => cases hr
  | error m' =>
    obtain ⟨rfl, rfl⟩ := Failure.mistake.inj (Except.error.inj hr)
    exact ⟨rfl, rfl⟩

/-- A declaration is settled when its value is known. -/
def settle (b : Bindings) (name : Option String) (a : Except Failure Binary64 × Scanner) :
    Except Failure Binary64 × Scanner :=
  match a with
  | (.ok v, s) => ((Phase.bound b name (.ok v)).mapError (.mistake s.line), s)
  | (.error f, s) => (.error f, s)

theorem settle_none (a : Except Failure Binary64 × Scanner) : settle b none a = a := by
  obtain ⟨f | v, s⟩ := a <;> rfl

theorem settle_finish {s : Scanner} (hs : s.held = none) (name : Option String) (result : Except Mistake Binary64)
    (left : Bool) (t : Token) :
    settle b name (Calculation.finish result left t s) =
      Calculation.finish (Phase.bound b name result) left t s := by
  cases left with
  | false =>
    rw [Calculation.finish_used, Calculation.finish_used]
    cases result with
    | error m => rw [Phase.bound_error]; rfl
    | ok v => rfl
  | true =>
    rw [Calculation.finish_left hs, Calculation.finish_left hs]
    cases result with
    | error m => rw [Phase.bound_error]; rfl
    | ok v => rfl

/-- A calculation goes on from where it is. -/
theorem ended_run {name : Option String} {state : Calculation.State}
    (h : Reached b level origin first w (.within name state) s) :
    Ended b level origin first (settle b name (Calculation.run b level state s)) := by
  fun_induction Calculation.run b level state s generalizing w with
  | case1 state s f after hn => exact .failed h hn
  | case2 state s t after hn next hstep ih => exact ih (h.more hn (Phase.ofStep_more hstep))
  | case3 state s t after hn result left hstep =>
    have hheld := held_next s
    rw [hn] at hheld
    rw [settle_finish hheld]
    exact .stopped h hn (Phase.ofStep_stop hstep)

end

namespace Desk

variable {d : Desk} {w : List Token} {origin : Phase} {first : Scanner}

theorem ended_calculate (d : Desk) (level : Calculation.Level) :
    Ended d.bindings level (.within none .start) d.scanner ((d.calculate level).1, (d.calculate level).2.scanner) := by
  have h : Reached d.bindings level (.within none .start) d.scanner [] (.within none .start) d.scanner := .none
  have hrun := ended_run h
  rw [settle_none] at hrun
  rwa [calculate_eq_run]

theorem ended_bindTo {name : String}
    (h : Reached d.bindings .expression origin first w (.within (some name) .start) d.scanner) :
    Ended d.bindings .expression origin first ((d.bindTo name).1, (d.bindTo name).2.scanner) := by
  have hrun := ended_run h
  rcases hc : d.calculate .expression with ⟨result, after⟩
  rw [calculate_eq_run] at hc
  obtain ⟨hr, rfl⟩ := Prod.mk.inj hc
  rw [← calculate_eq_run] at hc
  rw [← Prod.eta (Calculation.run _ _ _ _), hr] at hrun
  cases result with
  | error f => rwa [bindTo_of_error hc]
  | ok v =>
    rw [bindTo_of_ok hc]
    simp only [settle, Phase.bound] at hrun
    rcases hb : d.bindings.isBound name with _ | _
    · rwa [hb] at hrun
    · rwa [hb] at hrun

/-- A declaration goes wrong before its expression, or binds it to its name. -/
theorem ended_declaration
    (h : Reached d.bindings .expression origin first w .declared d.scanner) :
    Ended d.bindings .expression origin first (d.declaration.1, d.declaration.2.scanner) := by
  unfold declaration
  split
  · rename_i f s hn
    exact .failed h hn
  · rename_i name s hn
    have hnamed : Reached d.bindings .expression origin first _ (.named name) s := h.more hn rfl
    split
    · rename_i f s' hn'
      exact .failed hnamed hn'
    · rename_i t s' hn'
      by_cases ht : t = .symbol .equals
      · rw [if_pos ht]
        exact ended_bindTo (d := { d with scanner := s' }) (hnamed.more hn' (if_pos ht))
      · rw [if_neg ht]
        exact .stopped hnamed hn' (if_neg ht)
  · rename_i s hn
    have hstep : Phase.declaredStep .endOfInput = .stop (.error .inputEnded) false := rfl
    exact .stopped h hn hstep
  · rename_i t s hname hend hn
    have hstep : Phase.declaredStep t = .stop (.error (.nameExpected t)) false := by
      unfold Phase.declaredStep
      split
      · exact (hname _ rfl).elim
      · exact (hend rfl).elim
      · rfl
    exact .stopped h hn hstep

theorem ended_statement (d : Desk) :
    Ended d.bindings .expression .start d.scanner (d.statement.1, d.statement.2.scanner) := by
  have h : Reached d.bindings .expression .start d.scanner [] .start d.scanner := .none
  rcases hn : d.scanner.next with ⟨f | t, s⟩
  · rw [statement_of_error hn]
    exact .failed h hn
  by_cases ht : t = .keyword .declare
  · subst ht
    rw [statement_of_declare hn]
    exact ended_declaration (d := { d with scanner := s }) (h.more hn (Phase.step_declare _ _))
  · have hheld := held_next d.scanner
    rw [hn] at hheld
    have hstep := Phase.step_start d.bindings .expression ht
    rw [statement_of_token hn ht, calculate_eq_run]
    -- the token that was put back is taken again, now by the expression
    show Ended _ _ _ _ (Calculation.run d.bindings .expression .start { s with held := some t })
    rw [Calculation.run_of_next (next_hold hheld t)]
    rcases hs : Calculation.step d.bindings .expression .start t with next | ⟨result, left⟩
    · have hrun := ended_run (h.more hn (hstep.trans (Phase.ofStep_more hs)))
      rwa [settle_none] at hrun
    · exact .stopped h hn (hstep.trans (Phase.ofStep_stop hs))

end Desk

end Reckoner
