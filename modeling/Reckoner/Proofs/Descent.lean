/-
  Reckoner.Proofs.Descent — the productions and the automaton come to the same.

  The productions call each other; the automaton keeps in its state what they would go on with. So a
  run from where a production begins is that production, and then the run from where it leaves off
  (`run_eq_primary`, `run_eq_term`, `run_eq_expression`, by induction over what is left to read). A term and
  an expression leave the token that ended them to be read again, and the automaton takes it from
  there.

  - `ofLevel_eq_run`: the whole of a primary, a term or an expression is a run from the start.
-/

import Reckoner.Calculation.Run
import Reckoner.Desk
import Reckoner.Proofs.Held

namespace Reckoner

open Scanner Grammar

namespace Production

/-! ## Going on behind a production -/

/-- What follows a production, which passes on its failure. -/
def Result.resume {α β : Type} {n : Nat} (r : Result n α) (go : α → Scanner → Except Failure β × Scanner) :
    Except Failure β × Scanner :=
  match r.answer with
  | .ok v => go v r.scanner
  | .error f => (.error f, r.scanner)

section

variable {α β γ : Type} {m n : Nat} {s after : Scanner} {t : Token} {k : β → Scanner → Except Failure γ × Scanner}

theorem resume_of_ok {r : Result n β} {v : β} (h : r.answer = .ok v) : r.resume k = k v r.scanner := by
  rw [Result.resume, h]

theorem resume_of_error {r : Result n β} {f : Failure} (h : r.answer = .error f) :
    r.resume k = (.error f, r.scanner) := by
  rw [Result.resume, h]

theorem resume_congr {r : Result n β} {g : β → Scanner → Except Failure γ × Scanner}
    (h : ∀ v, r.answer = .ok v → k v r.scanner = g v r.scanner) : r.resume k = r.resume g := by
  obtain ⟨f | v, s, hs⟩ := r
  · rfl
  · exact h v rfl

theorem resume_andThen {r : Result n α} {go : α → (s : Scanner) → s.unread ≤ n → Result s.unread β}
    {g : α → Scanner → Except Failure γ × Scanner}
    (h : ∀ v, r.answer = .ok v → (go v r.scanner r.unread_le).resume k = g v r.scanner) :
    (r.andThen go).resume k = r.resume g := by
  obtain ⟨f | v, s, hs⟩ := r
  · rfl
  · exact h v rfl

theorem resume_within (h : m ≤ n) (r : Result m β) : (r.within h).resume k = r.resume k := rfl

theorem resume_pair (r : Result n β) : r.resume (fun v s => (.ok v, s)) = (r.answer, r.scanner) := by
  obtain ⟨f | v, s, hs⟩ := r <;> rfl

theorem resume_withNext_of_error
    {go : (t : Token) → (after : Scanner) → heldSize (some t) + after.unread ≤ s.unread → Result s.unread β}
    {f : Failure} (h : s.next = (.error f, after)) : (withNext s go).resume k = (.error f, after) := by
  obtain ⟨ha, hs⟩ := withNext_of_error go h
  rw [resume_of_error ha, hs]

theorem resume_next_of_error {go : Token → (s : Scanner) → Result s.unread β} {f : Failure}
    (h : s.next = (.error f, after)) : ((next s).andThen fun t s _ => go t s).resume k = (.error f, after) := by
  have hs : (next s).scanner = after := congrArg Prod.snd h
  rw [resume_andThen (g := fun t s => (go t s).resume k) fun _ _ => rfl, resume_of_error (congrArg Prod.fst h), hs]

theorem resume_next_of_token {go : Token → (s : Scanner) → Result s.unread β} (h : s.next = (.ok t, after)) :
    ((next s).andThen fun t s _ => go t s).resume k = (go t after).resume k := by
  have hs : (next s).scanner = after := congrArg Prod.snd h
  rw [resume_andThen (g := fun t s => (go t s).resume k) fun _ _ => rfl, resume_of_ok (congrArg Prod.fst h), hs]

/-- What ends at a token that was taken goes on where that token is put back. -/
theorem resume_putBack (hs : after.held = none) (ht : heldSize (some t) + after.unread ≤ n) (v : β) :
    ((putBack t after ht).andThen fun _ s _ => .ok v s).resume k = k v { after with held := some t } := by
  have hput : (putBack t after ht).answer = .ok () ∧ (putBack t after ht).scanner = { after with held := some t } := by
    rw [putBack]
    dsimp only
    rw [putBack_of_held_none hs]
    exact ⟨rfl, rfl⟩
  rw [resume_andThen (g := fun _ s => k v s) fun _ _ => rfl, resume_of_ok hput.1, hput.2]

end

end Production

namespace Calculation

open Production

variable {b : Bindings} {level : Level} {outer : Enclosing} {first s after : Scanner} {t : Token}

/-! ## Going on with the automaton -/

/-- A calculation goes on behind a token that was used up. -/
def goOn (b : Bindings) (level : Level) (next : Step) (s : Scanner) : Except Failure Binary64 × Scanner :=
  match next with
  | .more state => run b level state s
  | .stop result _ => (result.mapError (.mistake s.line), s)

/-- If a calculation is over, the token that ended it was used up. -/
def Step.Used : Step → Prop
  | .more _ => True
  | .stop _ left => left = false

theorem used_complete (p : Pending) (outer : Enclosing) (v : Binary64) : (complete level p outer v).Used := by
  rcases hc : complete level p outer v with state | ⟨result, left⟩
  · trivial
  · exact complete_left hc

/-- A token that cannot be part of a primary is used up all the same. -/
theorem used_operandStep (b : Bindings) (level : Level) (p : Pending) (outer : Enclosing) (t : Token) :
    (operandStep b level p outer t).Used := by
  unfold operandStep
  split
  · exact used_complete _ _ _
  · split
    · exact used_complete _ _ _
    · rfl
  · trivial
  · trivial
  · trivial
  · trivial
  · trivial
  · rfl
  · rfl

theorem run_of_used {state : State} (hn : s.next = (.ok t, after)) (h : (step b level state t).Used) :
    run b level state s = goOn b level (step b level state t) after := by
  rw [run_of_next hn]
  rcases hs : step b level state t with next | ⟨result, left⟩
  · rfl
  · rw [hs] at h
    obtain rfl : left = false := h
    rfl

/-- A token that waits and ends the calculation waits again. -/
theorem run_of_left {state : State} {result : Except Mistake Binary64} (hback : first.PutBack t s)
    (h : step b level state t = .stop result true) : run b level state s = (result.mapError (.mistake s.line), s) := by
  rw [run_of_next hback.next, h]
  dsimp only
  rw [finish_left rfl]
  show (_, { s with held := some t }) = (_, s)
  rw [← hback.held]

/-- Where one token is wanted, the automaton expects it as the productions do. -/
theorem run_eq_expect {state : State} {wanted : Symbol} {next : Step} (hnext : next.Used)
    (h : ∀ t after, s.next = (.ok t, after) → step b level state t = expect wanted t next) :
    run b level state s = (Production.expect wanted s).resume fun _ s => goOn b level next s := by
  rw [Production.expect]
  rcases hn : s.next with ⟨f | t, after⟩
  · rw [run_of_error hn, resume_next_of_error hn]
  · have hstep := h t after hn
    have hused : (step b level state t).Used := by
      rw [hstep, expect]
      split
      · exact hnext
      · split <;> rfl
    rw [run_of_used hn hused, hstep, expect, resume_next_of_token hn]
    split
    · rfl
    · split <;> rfl

theorem run_eq_expect_more {state next : State} {wanted : Symbol}
    (h : ∀ t after, s.next = (.ok t, after) → step b level state t = expect wanted t (.more next)) :
    run b level state s = (Production.expect wanted s).resume fun _ s => run b level next s := by
  have hused : (Step.more next).Used := trivial
  exact run_eq_expect hused h

/-- The exponent of a power is one token. -/
theorem run_eq_exponent (base : Binary64) (p : Pending) (outer : Enclosing) (s : Scanner) :
    run b level (.exponent base p outer) s =
      (Production.exponent b s).resume fun n s => run b level (.closing base n p outer) s := by
  rw [Production.exponent]
  rcases hn : s.next with ⟨f | t, after⟩
  · rw [run_of_error hn, resume_next_of_error hn]
  · rw [run_of_next hn, resume_next_of_token hn]
    rw [step, exponentStep]
    rcases exponentValue b t with m | v
    · rfl
    · simp only [Except.bind]
      show _ = (Result.check v.toExponent after).resume fun n s => run b level (.closing base n p outer) s
      cases v.toExponent <;> rfl

/-! ## Brackets -/

variable (b level) in
/-- The token behind an expression in brackets is for the brackets. -/
theorem step_of_waits (hw : first.Waits (· ∉ operators) s) (v : Binary64) (x : Bracket × Pending)
    (outer : Enclosing) (t : Token) (after : Scanner) (hn : s.next = (.ok t, after)) :
    step b level (.operator none v (x :: outer)) t = enclose level v t (x :: outer) := by
  obtain ⟨u, hback, hu⟩ := hw
  obtain rfl := hback.eq_of_next hn
  exact operatorStep_of_not_mem hu (whole_cons x outer) none v

theorem run_eq_group (hw : first.Waits (· ∉ operators) s) (v : Binary64) (p : Pending) (outer : Enclosing) :
    run b level (.operator none v ((.group, p) :: outer)) s =
      ((Production.expect .closing s).andThen fun _ s _ => .ok v s).resume fun v s =>
        goOn b level (complete level p outer v) s := by
  rw [run_eq_expect (used_complete p outer v) (step_of_waits b level hw v (.group, p) outer)]
  exact (resume_andThen fun _ _ => rfl).symm

/-- A root that does not exist is noticed at the token behind its argument, which still waits. -/
theorem run_eq_root (hw : first.Waits (· ∉ operators) s) (v : Binary64) (p : Pending) (outer : Enclosing) :
    run b level (.operator none v ((.argument .root, p) :: outer)) s =
      ((Result.check v.squareRoot s).andThen fun w s _ =>
        (Production.expect .closing s).andThen fun _ s _ => .ok w s).resume fun v s =>
          goOn b level (complete level p outer v) s := by
  have hstep := step_of_waits b level hw v (.argument .root, p) outer
  rcases hroot : v.squareRoot with m | w
  · obtain ⟨t, hback, -⟩ := hw
    rw [run_of_left hback ((hstep t _ hback.next).trans (by rw [enclose, hroot]))]
    rfl
  · rw [run_eq_expect (used_complete p outer w) fun t after hn => (hstep t after hn).trans (by rw [enclose, hroot])]
    exact (resume_andThen fun _ _ => rfl).symm

theorem run_eq_base (hw : first.Waits (· ∉ operators) s) (base : Binary64) (p : Pending) (outer : Enclosing) :
    run b level (.operator none base ((.argument .power, p) :: outer)) s =
      ((Production.expect .comma s).andThen fun _ s _ =>
        (Production.exponent b s).andThen fun n s _ =>
          (Production.expect .closing s).andThen fun _ s _ => .ok (base.power n) s).resume fun v s =>
            goOn b level (complete level p outer v) s := by
  rw [run_eq_expect_more (step_of_waits b level hw base (.argument .power, p) outer)]
  refine (resume_andThen fun _ _ => ?_).symm
  rw [run_eq_exponent]
  refine resume_andThen fun n _ => ?_
  rw [run_eq_expect (used_complete p outer (base.power n)) fun _ _ _ => rfl]
  exact resume_andThen fun _ _ => rfl

/-! ## Terms and expressions -/

/-- A sum that waits is worked out at the next token, if that does not go on with the product. -/
theorem run_eq_total (hw : Whole level outer) (sum : Option (Binary64 × SumOperator)) (v : Binary64)
    (hn : s.next = (.ok t, after)) (ht : t.productOperator? = none) :
    run b level (.operator sum v outer) s = run b level (.operator none (total sum v) outer) s := by
  have hstep : step b level (.operator sum v outer) t = step b level (.operator none (total sum v) outer) t := by
    cases sum <;> simp only [step, operatorStep, ht, hw.not_term, if_false, total]
  rw [run_of_next hn, run_of_next hn, hstep]

section

variable {n : Nat}
-- what is known of every primary that has less to read
variable (hp : ∀ s : Scanner, s.unread < n → ∀ p outer,
  run b level (.operand p outer) s =
    (primary b s).resume fun v s => goOn b level (complete level p outer v) s)
include hp

/-- The factors that follow the first one. -/
theorem run_eq_factors (ho : ¬ (level = .primary ∧ outer = [])) (sum : Option (Binary64 × SumOperator))
    (left : Binary64) (hs : s.unread ≤ n) :
    run b level (.operator sum left outer) s =
      (factors b left s).resume fun v s => run b level (.operator sum v outer) s := by
  induction s using unread_induction generalizing left with
  | less s ih =>
    rw [factors]
    rcases hn : s.next with ⟨f | t, after⟩
    · rw [run_of_error hn, resume_withNext_of_error hn]
    have hheld := held_of_next hn
    have ht := unread_token_le hn
    rw [withNext_of_token hn]
    split
    · rename_i op hop
      have hlt := lt_of_token ht (ne_end_of_productOperator? hop)
      have hstep : step b level (.operator sum left outer) t =
          .more (.operand { sum, product := some (left, op) } outer) := by
        simp only [step, operatorStep, hop]
      rw [run_of_next hn, hstep, resume_within]
      dsimp only
      rw [hp after (Nat.lt_of_lt_of_le hlt hs)]
      refine (resume_andThen fun right hr => ?_).symm
      rw [complete_next ho]
      rcases ha : op.apply left right with m | v
      · rfl
      · have hle := (primary b after).unread_le
        exact (ih _ (by omega) v (by omega)).symm
    · rename_i hop
      rw [resume_putBack hheld, run_of_next hn, run_of_next (next_hold hheld t)]

theorem run_eq_term (ho : ¬ (level = .primary ∧ outer = [])) (sum : Option (Binary64 × SumOperator))
    (hs : s.unread < n) :
    run b level (.operand { sum } outer) s =
      (term b s).resume fun v s => run b level (.operator sum v outer) s := by
  rw [hp s hs, term]
  refine (resume_andThen fun v hv => ?_).symm
  rw [complete_first ho]
  have hle := (primary b s).unread_le
  exact (run_eq_factors hp ho sum v (by omega)).symm

/-- The terms that follow the first one, behind which no product goes on. -/
theorem run_eq_sums (hw : Whole level outer) (left : Binary64) (hs : s.unread ≤ n)
    (hwaits : first.Waits (·.productOperator? = none) s) :
    run b level (.operator none left outer) s =
      (sums b left s).resume fun v s => run b level (.operator none v outer) s := by
  induction s using unread_induction generalizing first left with
  | less s ih =>
    obtain ⟨t, hback, hproduct⟩ := hwaits
    obtain ⟨after, hn⟩ : ∃ after, s.next = (.ok t, after) := ⟨_, hback.next⟩
    have hheld := held_of_next hn
    have ht := unread_token_le hn
    rw [sums, withNext_of_token hn]
    split
    · rename_i op hop
      have hlt := lt_of_token ht (ne_end_of_sumOperator? hop)
      have hstep : step b level (.operator none left outer) t = .more (.operand { sum := some (left, op) } outer) := by
        simp only [step, operatorStep, hproduct, hop, hw.not_term, if_false]
      rw [run_of_next hn, hstep, resume_within]
      dsimp only
      rw [run_eq_term hp hw.not_primary _ (Nat.lt_of_lt_of_le hlt hs)]
      refine (resume_andThen fun right hr => ?_).symm
      have hle := (term b after).unread_le
      obtain ⟨u, hlast, hu⟩ := (exits_term (Reaches.refl after)).good_of_ok hr
      rw [run_eq_total hw _ _ hlast.next hu]
      exact (ih _ (by omega) _ (by omega) ⟨u, hlast, hu⟩).symm
    · rename_i hop
      rw [resume_putBack hheld, run_of_next hn, run_of_next (next_hold hheld t)]

theorem run_eq_expression (hw : Whole level outer) (hs : s.unread < n) :
    run b level (.operand {} outer) s =
      (expression b s).resume fun v s => run b level (.operator none v outer) s := by
  rw [run_eq_term hp hw.not_primary none hs, expression]
  refine (resume_andThen fun v hv => ?_).symm
  have hle := (term b s).unread_le
  exact (run_eq_sums hp hw v (by omega) ((exits_term (Reaches.refl s)).good_of_ok hv)).symm

/-- A function, behind its keyword, with what comes behind its first argument. -/
theorem run_eq_call (f : BuiltIn) (p : Pending) (outer : Enclosing) (hs : s.unread < n)
    {behind : Binary64 → (s : Scanner) → Result s.unread Binary64}
    (h : ∀ {first s : Scanner}, first.Waits (· ∉ operators) s → ∀ v,
      run b level (.operator none v ((.argument f, p) :: outer)) s =
        (behind v s).resume fun v s => goOn b level (complete level p outer v) s) :
    run b level (.opening f p outer) s =
      ((Production.expect .opening s).andThen fun _ s _ =>
        (expression b s).andThen fun v s _ => behind v s).resume fun v s =>
          goOn b level (complete level p outer v) s := by
  rw [run_eq_expect_more fun _ _ _ => rfl]
  refine (resume_andThen fun _ _ => ?_).symm
  have hle := (Production.expect .opening s).unread_le
  rw [run_eq_expression hp (whole_cons _ _) (by omega)]
  exact resume_andThen fun v hv => (h ((exits_expression (Reaches.refl _)).good_of_ok hv) v).symm

end

/-! ## Whole calculations -/

/-- A primary is read by its production, and then completed. -/
theorem run_eq_primary (b : Bindings) (level : Level) (s : Scanner) (p : Pending) (outer : Enclosing) :
    run b level (.operand p outer) s =
      (primary b s).resume fun v s => goOn b level (complete level p outer v) s := by
  induction s using unread_induction generalizing p outer with
  | less s ih =>
    rw [primary]
    rcases hn : s.next with ⟨f | t, after⟩
    · rw [run_of_error hn, resume_withNext_of_error hn]
    have hlt : t ≠ .endOfInput → after.unread < s.unread := lt_of_token (unread_token_le hn)
    have hstep : run b level (.operand p outer) s = goOn b level (operandStep b level p outer t) after :=
      run_of_used hn (used_operandStep b level p outer t)
    rw [withNext_of_token hn, resume_within, hstep]
    cases t with
    | number v => rfl
    | name n =>
      show _ = (Result.check (b.lookup n) after).resume _
      rw [operandStep]
      cases b.lookup n <;> rfl
    | endOfInput => rfl
    | keyword k =>
      cases k with
      | root =>
        show run b level (.opening .root p outer) after = (rootCall b after).resume _
        rw [rootCall]
        exact run_eq_call ih .root p outer (hlt (by simp)) fun hw v => run_eq_root hw v p outer
      | power =>
        show run b level (.opening .power p outer) after = (powerCall b after).resume _
        rw [powerCall]
        exact run_eq_call ih .power p outer (hlt (by simp)) fun hw v => run_eq_base hw v p outer
      | declare => rfl
      | exit => rfl
    | symbol c =>
      cases c with
      | opening =>
        show run b level (.operand {} ((.group, p) :: outer)) after = _
        rw [run_eq_expression ih (whole_cons _ _) (hlt (by simp))]
        exact (resume_andThen fun v hv =>
          (run_eq_group ((exits_expression (Reaches.refl _)).good_of_ok hv) v p outer).symm).symm
      | minus =>
        show run b level (.operand { p with negate := !p.negate } outer) after = _
        rw [ih after (hlt (by simp))]
        refine (resume_andThen fun v _ => ?_).symm
        rw [complete_negate]
        rfl
      | plus => exact ih after (hlt (by simp)) p outer
      | _ => rfl

/-- The production of a level and a run from the start have one outcome. -/
theorem ofLevel_eq_run (level : Level) (b : Bindings) (s : Scanner) :
    ((ofLevel level b s).answer, (ofLevel level b s).scanner) = run b level .start s := by
  have hp (s : Scanner) := run_eq_primary b level s
  rw [← resume_pair, State.start]
  cases level with
  | primary =>
    rw [hp]
    exact resume_congr fun v _ => rfl
  | term =>
    rw [run_eq_term (fun s _ => hp s) (by simp) none (Nat.lt_succ_self _)]
    refine resume_congr fun v hv => ?_
    obtain ⟨t, hback, ht⟩ := (exits_term (Reaches.refl s)).good_of_ok hv
    have hstep : step b .term (.operator none v []) t = .stop (.ok v) true := by
      simp [step, operatorStep, ht]
    exact (run_of_left hback hstep).symm
  | expression =>
    rw [run_eq_expression (fun s _ => hp s) (.inl rfl) (Nat.lt_succ_self _)]
    refine resume_congr fun v hv => ?_
    obtain ⟨t, hback, ht⟩ := (exits_expression (Reaches.refl s)).good_of_ok hv
    have hstep : step b .expression (.operator none v []) t = .stop (.ok v) true :=
      operatorStep_of_not_mem ht (.inl rfl) none v
    exact (run_of_left hback hstep).symm

end Calculation

/-- What a desk calculates is a run of the automaton over its scanner. -/
theorem Desk.calculate_eq_run (level : Calculation.Level) (d : Desk) :
    d.calculate level =
      ((Calculation.run d.bindings level .start d.scanner).1,
        { d with scanner := (Calculation.run d.bindings level .start d.scanner).2 }) := by
  rw [← Calculation.ofLevel_eq_run]
  rfl

end Reckoner
