/-
  Reckoner.Proofs.Calculation — the calculation of an expression follows its grammar.

  A calculation has no tree: it is a state that every token changes. Fed with the yield of a
  tree, it comes to the value of the tree, with what waited before still waiting
  (`feed_primary`, `feed_term`, `feed_expression`, by induction over the tree). A calculation
  that ends with a value was fed with the yield of a tree (`primaryRead`, `expressionRead`, by
  induction over the number of tokens).
-/

import Reckoner.Calculation.Run
import Reckoner.Proofs.Grammar

namespace Reckoner.Calculation

open Grammar

variable {b : Bindings} {level : Level}

/-! ## Feeding a calculation with tokens -/

def Step.andThen (s : Step) (f : State → Step) : Step :=
  match s with
  | .more state => f state
  | .stop result left => .stop result left

/-- What the tokens make of a state; a calculation that is over takes no more of them. -/
def feed (b : Bindings) (level : Level) : State → List Token → Step
  | s, [] => .more s
  | s, t :: ts => (step b level s t).andThen fun next => feed b level next ts

@[simp] theorem andThen_more (s : State) (f : State → Step) : (Step.more s).andThen f = f s := rfl

@[simp] theorem andThen_pure (s : Step) : (s.andThen fun next => .more next) = s := by cases s <;> rfl

theorem andThen_assoc (s : Step) (f g : State → Step) :
    (s.andThen f).andThen g = s.andThen fun next => (f next).andThen g := by cases s <;> rfl

theorem feed_append (s : State) (ts us : List Token) :
    feed b level s (ts ++ us) = (feed b level s ts).andThen fun next => feed b level next us := by
  induction ts generalizing s with
  | nil => rfl
  | cons t ts ih =>
    simp only [List.cons_append, feed, andThen_assoc]
    congr
    funext next
    exact ih next

/-! ## Equations of single steps -/

/-- The sum so far, with the term that was read last. -/
def total (sum : Option (Binary64 × SumOperator)) (v : Binary64) : Binary64 :=
  match sum with
  | some (left, op) => op.apply left v
  | none => v

/-- The end of an expression does not end the calculation before its value is wanted. -/
def Whole (level : Level) (outer : Enclosing) : Prop := level = .expression ∨ outer ≠ []

theorem whole_cons (x : Bracket × Pending) (outer : Enclosing) : Whole level (x :: outer) := .inr (by simp)

theorem Whole.not_primary {outer : Enclosing} (h : Whole level outer) : ¬ (level = .primary ∧ outer = []) := by
  rintro ⟨rfl, rfl⟩
  rcases h with h | h
  · cases h
  · exact h rfl

theorem Whole.not_term {outer : Enclosing} (h : Whole level outer) : ¬ (level = .term ∧ outer = []) := by
  rintro ⟨rfl, rfl⟩
  rcases h with h | h
  · cases h
  · exact h rfl

/-- A minus sign before a primary changes the sign of its value. -/
theorem complete_negate (q : Pending) (outer : Enclosing) (v : Binary64) :
    complete level { q with negate := !q.negate } outer v = complete level q outer v.neg := by
  rcases hq : q.negate <;> simp [complete, hq, Binary64.neg_neg]

theorem complete_first {outer : Enclosing} (h : ¬ (level = .primary ∧ outer = [])) (sum : Option (Binary64 × SumOperator))
    (v : Binary64) : complete level { sum } outer v = .more (.operator sum v outer) := by
  simp [complete, h]

theorem complete_next {outer : Enclosing} (h : ¬ (level = .primary ∧ outer = [])) (sum : Option (Binary64 × SumOperator))
    (left right : Binary64) (op : ProductOperator) :
    complete level { sum, product := some (left, op) } outer right =
      match op.apply left right with
      | .ok v => .more (.operator sum v outer)
      | .error m => .fail m := by
  simp only [complete, h, if_false, Bool.false_eq_true]
  cases op.apply left right <;> rfl

@[simp] theorem productOperator?_symbol (op : ProductOperator) :
    (Token.symbol op.symbol).productOperator? = some op := by cases op <;> rfl

@[simp] theorem sumOperator?_symbol (op : SumOperator) : (Token.symbol op.symbol).sumOperator? = some op := by
  cases op <;> rfl

@[simp] theorem productOperator?_sum (op : SumOperator) : (Token.symbol op.symbol).productOperator? = none := by
  cases op <;> rfl

theorem eq_of_productOperator? {t : Token} {op : ProductOperator} (h : t.productOperator? = some op) :
    t = .symbol op.symbol := by
  cases t with
  | symbol s => cases s <;> cases h <;> rfl
  | _ => cases h

theorem eq_of_sumOperator? {t : Token} {op : SumOperator} (h : t.sumOperator? = some op) :
    t = .symbol op.symbol := by
  cases t with
  | symbol s => cases s <;> cases h <;> rfl
  | _ => cases h

theorem not_mem_operators {t : Token} : t ∉ operators ↔ t.productOperator? = none ∧ t.sumOperator? = none := by
  cases t with
  | symbol s => cases s <;> decide
  | _ => simp [operators, Token.productOperator?, Token.sumOperator?, Token.symbol?]

/-! ## The mistakes of operations -/

/-- The only mistake of a product is a division by zero. -/
theorem eq_of_apply {op : ProductOperator} {v w : Binary64} {m : Mistake} (h : op.apply v w = .error m) :
    m = .divisionByZero ∧ op ≠ .times ∧ w.isZero = true := by
  cases op with
  | times => cases h
  | divided =>
    simp only [ProductOperator.apply, Binary64.divide] at h
    split at h <;> cases h
    exact ⟨rfl, nofun, by assumption⟩
  | modulo =>
    simp only [ProductOperator.apply, Binary64.remainder] at h
    split at h <;> cases h
    exact ⟨rfl, nofun, by assumption⟩

theorem eq_of_lookup {n : String} {m : Mistake} (h : b.lookup n = .error m) : m = .undeclared n := by
  unfold Bindings.lookup at h
  split at h
  · cases h
  · exact (Except.error.inj h).symm

theorem eq_of_squareRoot {v : Binary64} {m : Mistake} (h : v.squareRoot = .error m) : m = .negativeRoot v := by
  unfold Binary64.squareRoot at h
  split at h <;> cases h
  rfl

/-- The mistakes of a number that is no exponent. -/
theorem eq_of_toExponent {v : Binary64} {m : Mistake} (h : v.toExponent = .error m) :
    m = .exponentNotWhole v ∨ m = .exponentTooLarge v ∨ ∃ n, m = .exponentNegative n := by
  unfold Binary64.toExponent at h
  split at h
  · exact .inl (Except.error.inj h).symm
  · exact .inr (.inl (Except.error.inj h).symm)
  · dsimp only at h
    split at h
    · exact .inl (Except.error.inj h).symm
    split at h
    · exact .inr (.inr ⟨_, (Except.error.inj h).symm⟩)
    split at h
    · exact .inr (.inl (Except.error.inj h).symm)
    · cases h

/-! ## Every tree is calculated -/

theorem ok_of_bind {α β : Type} {x : Except Mistake α} {f : α → Except Mistake β} {w : β} (h : x >>= f = .ok w) :
    ∃ v, x = .ok v ∧ f v = .ok w := by
  cases x with
  | error m => cases h
  | ok v => exact ⟨v, rfl, h⟩

theorem feed_exponent {x : Exponent} {n : Nat} (h : x.value b = .ok n) (base : Binary64) (q : Pending)
    (outer : Enclosing) :
    feed b level (.exponent base q outer) x.yield = .more (.closing base n q outer) := by
  cases x with
  | number v =>
    have h : v.toExponent = .ok n := h
    simp [Exponent.yield, feed, step, exponentStep, Production.exponentValue, Except.bind, h]
  | name name =>
    obtain ⟨v, hv, hn⟩ := ok_of_bind h
    simp [Exponent.yield, feed, step, exponentStep, Production.exponentValue, Except.bind, hv, hn]

theorem expect_wanted (s : Symbol) (next : Step) : expect s (.symbol s) next = next := by simp [expect]

theorem enclose_group (v : Binary64) (q : Pending) (outer : Enclosing) :
    enclose level v (.symbol .closing) ((.group, q) :: outer) = complete level q outer v := expect_wanted _ _

theorem operatorStep_of_not_mem {t : Token} (ht : t ∉ operators) {outer : Enclosing} (h : Whole level outer)
    (sum : Option (Binary64 × SumOperator)) (v : Binary64) :
    operatorStep level sum v outer t = enclose level (total sum v) t outer := by
  obtain ⟨hp, hs⟩ := not_mem_operators.mp ht
  simp only [operatorStep, hp, hs, h.not_term, if_false]
  rfl

mutual

/-- Fed with a primary, a calculation completes it with its value. -/
theorem feed_primary {p : Primary} {v : Binary64} (h : p.value b = .ok v) (q : Pending) (outer : Enclosing) :
    feed b level (.operand q outer) p.yield = complete level q outer v := by
  match p, h with
  | .number w, h =>
    obtain rfl := Except.ok.inj h
    simp [Primary.yield, feed, step, operandStep]
  | .name n, h =>
    have h : b.lookup n = .ok v := h
    simp [Primary.yield, feed, step, operandStep, h]
  | .group e, h =>
    have h : e.value b = .ok v := h
    obtain ⟨sum, w, hf, rfl⟩ := feed_expression h (whole_cons (.group, q) outer)
    have hc : (Token.symbol .closing) ∉ operators := by decide
    simp only [Primary.yield, feed, step, operandStep, andThen_more, feed_append, hf,
      operatorStep_of_not_mem hc (whole_cons _ _), enclose_group, andThen_pure]
  | .plus p, h =>
    have h : p.value b = .ok v := h
    simp only [Primary.yield, feed, step, operandStep, andThen_more]
    exact feed_primary h q outer
  | .minus p, h =>
    obtain ⟨w, hw, hv⟩ := ok_of_bind h
    obtain rfl := Except.ok.inj hv
    simp only [Primary.yield, feed, step, operandStep, andThen_more]
    rw [feed_primary hw, complete_negate]
  | .root e, h =>
    obtain ⟨w, hw, hv⟩ := ok_of_bind h
    obtain ⟨sum, x, hf, rfl⟩ := feed_expression hw (whole_cons (.argument .root, q) outer)
    have hc : (Token.symbol .closing) ∉ operators := by decide
    simp only [Primary.yield, feed, step, operandStep, expect_wanted, andThen_more, feed_append, hf,
      operatorStep_of_not_mem hc (whole_cons _ _), enclose, hv, andThen_pure]
  | .power base x, h =>
    obtain ⟨w, hw, h⟩ := ok_of_bind h
    obtain ⟨n, hn, hv⟩ := ok_of_bind h
    obtain rfl := Except.ok.inj hv
    obtain ⟨sum, y, hf, rfl⟩ := feed_expression hw (whole_cons (.argument .power, q) outer)
    have hc : (Token.symbol .comma) ∉ operators := by decide
    simp only [Primary.yield, feed, step, operandStep, expect_wanted, andThen_more, feed_append, hf,
      operatorStep_of_not_mem hc (whole_cons _ _), enclose, feed_exponent hn, andThen_pure]

/-- Fed with a term, it stands behind it with its value. -/
theorem feed_term {t : Term} {v : Binary64} (h : t.value b = .ok v) {outer : Enclosing} (hw : Whole level outer)
    (sum : Option (Binary64 × SumOperator)) :
    feed b level (.operand { sum } outer) t.yield = .more (.operator sum v outer) := by
  match t, h with
  | .of first rest, h =>
    obtain ⟨left, hl, hr⟩ := ok_of_bind h
    rw [Term.yield, feed_append, feed_primary hl, complete_first hw.not_primary, andThen_more]
    exact feed_products hr hw sum

theorem feed_products {ps : Products} {left v : Binary64} (h : ps.value b left = .ok v) {outer : Enclosing}
    (hw : Whole level outer) (sum : Option (Binary64 × SumOperator)) :
    feed b level (.operator sum left outer) ps.yield = .more (.operator sum v outer) := by
  match ps, h with
  | .none, h =>
    obtain rfl := Except.ok.inj h
    rfl
  | .more op p rest, h =>
    obtain ⟨right, hp, h⟩ := ok_of_bind h
    obtain ⟨next, hn, hr⟩ := ok_of_bind h
    simp only [Products.yield, feed, step, operatorStep, productOperator?_symbol, andThen_more, feed_append]
    rw [feed_primary hp, complete_next hw.not_primary, hn]
    exact feed_products hr hw sum

/-- Fed with an expression, it stands behind its last term, with the sum before that pending. -/
theorem feed_expression {e : Expression} {v : Binary64} (h : e.value b = .ok v) {outer : Enclosing}
    (hw : Whole level outer) :
    ∃ sum w, feed b level (.operand {} outer) e.yield = .more (.operator sum w outer) ∧ total sum w = v := by
  match e, h with
  | .of first rest, h =>
    obtain ⟨left, hl, hr⟩ := ok_of_bind h
    rw [Expression.yield, feed_append, feed_term hl hw none, andThen_more]
    exact feed_sums hr hw rfl

theorem feed_sums {ss : Sums} {left v : Binary64} (h : ss.value b left = .ok v) {outer : Enclosing}
    (hw : Whole level outer) {sum : Option (Binary64 × SumOperator)} {last : Binary64}
    (hs : total sum last = left) :
    ∃ sum' w, feed b level (.operator sum last outer) ss.yield = .more (.operator sum' w outer) ∧
      total sum' w = v := by
  match ss, h with
  | .none, h =>
    obtain rfl := Except.ok.inj h
    exact ⟨sum, last, rfl, hs⟩
  | .more op t rest, h =>
    obtain ⟨right, ht, hr⟩ := ok_of_bind h
    have hstep : operatorStep level sum last outer (.symbol op.symbol) =
        .more (.operand { sum := some (left, op) } outer) := by
      simp only [operatorStep, productOperator?_sum, sumOperator?_symbol, hw.not_term, if_false, ← hs]
      rfl
    simp only [Sums.yield, feed, step, hstep, andThen_more, feed_append]
    rw [feed_term ht hw]
    exact feed_sums hr hw rfl

end

/-- At the end of an expression its value goes to what encloses it. -/
theorem feed_enclose {e : Expression} {w : Binary64} (h : e.value b = .ok w) {outer : Enclosing}
    (hw : Whole level outer)
    {t : Token} (ht : t ∉ operators) (rest : List Token) :
    feed b level (.operand {} outer) (e.yield ++ t :: rest) =
      (enclose level w t outer).andThen fun next => feed b level next rest := by
  obtain ⟨sum, last, hf, rfl⟩ := feed_expression h hw
  rw [feed_append, hf, andThen_more, feed]
  show (operatorStep level sum last outer t).andThen _ = _
  rw [operatorStep_of_not_mem ht hw]

/-! ## Every value is that of a tree -/

theorem of_expect {s : Symbol} {t : Token} {next : Step} {f : State → Step} {v : Binary64} {left : Bool}
    (h : (expect s t next).andThen f = .stop (.ok v) left) :
    t = .symbol s ∧ next.andThen f = .stop (.ok v) left := by
  unfold expect at h
  split at h
  · exact ⟨by assumption, h⟩
  · split at h <;> cases h

/-- Where a primary is due, at most `n` tokens lead to a value only if they begin with one. -/
def PrimaryRead (b : Bindings) (level : Level) (n : Nat) : Prop :=
  ∀ ts : List Token, ts.length ≤ n → ∀ q outer v left, feed b level (.operand q outer) ts = .stop (.ok v) left →
    ∃ (p : Primary) (w : Binary64) (rest : List Token), ts = p.yield ++ rest ∧ p.value b = .ok w

theorem productsRead {n k : Nat} (hp : PrimaryRead b level n) (hk : k ≤ n + 1) {ts : List Token}
    (hn : ts.length < k)
    {outer : Enclosing} (hw : Whole level outer) {sum : Option (Binary64 × SumOperator)} {last v : Binary64}
    {left : Bool}
    (h : feed b level (.operator sum last outer) ts = .stop (.ok v) left) :
    ∃ (ps : Products) (w : Binary64) (t : Token) (rest : List Token),
      ts = ps.yield ++ t :: rest ∧ ps.value b last = .ok w ∧ t.productOperator? = none := by
  induction k generalizing ts last with
  | zero => exact absurd hn (Nat.not_lt_zero _)
  | succ k ih =>
    rcases ts with _ | ⟨t, ts⟩
    · cases h
    rcases ht : t.productOperator? with _ | op
    · exact ⟨.none, last, t, ts, rfl, rfl, ht⟩
    · obtain rfl := eq_of_productOperator? ht
      simp only [feed, step, operatorStep, ht, andThen_more] at h
      rw [List.length_cons] at hn
      obtain ⟨p, w, rest, rfl, hv⟩ := hp ts (by omega) _ _ _ _ h
      rw [feed_append, feed_primary hv, complete_next hw.not_primary] at h
      rcases ha : op.apply last w with m | next
      · rw [ha] at h
        cases h
      · rw [ha] at h
        rw [List.length_append] at hn
        obtain ⟨ps, x, t, rest', rfl, hx, ht'⟩ := ih (by omega) (by omega) h
        refine ⟨.more op p ps, x, t, rest', ?_, ?_, ht'⟩
        · simp [Products.yield]
        · simp [Products.value, hv, ha, hx, bind, Except.bind]

theorem termRead {n : Nat} (hp : PrimaryRead b level n) {ts : List Token} (hn : ts.length ≤ n) {outer : Enclosing}
    (hw : Whole level outer) {sum : Option (Binary64 × SumOperator)} {v : Binary64} {left : Bool}
    (h : feed b level (.operand { sum } outer) ts = .stop (.ok v) left) :
    ∃ (tree : Term) (w : Binary64) (t : Token) (rest : List Token),
      ts = tree.yield ++ t :: rest ∧ tree.value b = .ok w ∧ t.productOperator? = none := by
  obtain ⟨p, first, rest, rfl, hv⟩ := hp ts hn _ _ _ _ h
  rw [feed_append, feed_primary hv, complete_first hw.not_primary, andThen_more] at h
  rw [List.length_append] at hn
  obtain ⟨ps, w, t, rest', rfl, hw', ht⟩ := productsRead hp (Nat.le_refl _) (by omega) hw h
  refine ⟨.of p ps, w, t, rest', ?_, ?_, ht⟩
  · simp [Term.yield]
  · simp [Term.value, hv, hw', bind, Except.bind]

theorem sumsRead {n k : Nat} (hp : PrimaryRead b level n) (hk : k ≤ n + 1) {t : Token} {ts : List Token}
    (hn : ts.length < k) (ht : t.productOperator? = none) {outer : Enclosing} (hw : Whole level outer)
    {sum : Option (Binary64 × SumOperator)} {last v : Binary64} {left : Bool}
    (h : feed b level (.operator sum last outer) (t :: ts) = .stop (.ok v) left) :
    ∃ (ss : Sums) (w : Binary64) (next : Token) (rest : List Token),
      t :: ts = ss.yield ++ next :: rest ∧ ss.value b (total sum last) = .ok w ∧ next ∉ operators := by
  induction k generalizing t ts sum last with
  | zero => exact absurd hn (Nat.not_lt_zero _)
  | succ k ih =>
    rcases hs : t.sumOperator? with _ | op
    · exact ⟨.none, total sum last, t, ts, rfl, rfl, not_mem_operators.mpr ⟨ht, hs⟩⟩
    · simp only [feed, step, operatorStep, ht, hs, hw.not_term, if_false, andThen_more] at h
      obtain ⟨tree, w, next, rest, rfl, hv, hnext⟩ := termRead hp (by omega) hw h
      rw [feed_append, feed_term hv hw, andThen_more] at h
      simp only [List.length_append, List.length_cons] at hn
      obtain ⟨ss, x, after, rest', he, hx, ha⟩ := ih (by omega) (by omega) hnext h
      obtain rfl := eq_of_sumOperator? hs
      refine ⟨.more op tree ss, x, after, rest', ?_, ?_, ha⟩
      · simp [Sums.yield, he]
      · simp only [Sums.value, hv, bind, Except.bind]
        exact hx

/-- Where an expression is due, tokens lead to a value only if they begin with one, and a token
    that does not go on with it. -/
theorem expressionRead {n : Nat} (hp : PrimaryRead b level n) {ts : List Token} (hn : ts.length ≤ n)
    {outer : Enclosing}
    (hw : Whole level outer) {v : Binary64} {left : Bool}
    (h : feed b level (.operand {} outer) ts = .stop (.ok v) left) :
    ∃ (e : Expression) (w : Binary64) (t : Token) (rest : List Token),
      ts = e.yield ++ t :: rest ∧ e.value b = .ok w ∧ t ∉ operators ∧
        (enclose level w t outer).andThen (fun next => feed b level next rest) = .stop (.ok v) left := by
  have hf := h
  obtain ⟨tree, first, t, rest, rfl, hv, ht⟩ := termRead hp hn hw h
  rw [feed_append, feed_term hv hw, andThen_more] at h
  simp only [List.length_append, List.length_cons] at hn
  obtain ⟨ss, w, next, rest', he, hw', hnext⟩ := sumsRead hp (Nat.le_refl _) (by omega) ht hw h
  have hvalue : (Expression.of tree ss).value b = .ok w := by
    simp only [Expression.value, hv, bind, Except.bind]
    exact hw'
  have hyield : tree.yield ++ t :: rest = (Expression.of tree ss).yield ++ next :: rest' := by
    simp [Expression.yield, he]
  refine ⟨.of tree ss, w, next, rest', hyield, hvalue, hnext, ?_⟩
  rw [hyield, feed_enclose hvalue hw hnext] at hf
  exact hf

/-- A primary in brackets is read if the expression in them is. -/
theorem groupRead {n : Nat} (hp : PrimaryRead b level n) {ts : List Token} (hn : ts.length ≤ n) {q : Pending}
    {outer : Enclosing} {v : Binary64} {left : Bool}
    (h : feed b level (.operand {} ((.group, q) :: outer)) ts = .stop (.ok v) left) :
    ∃ (e : Expression) (w : Binary64) (rest : List Token),
      ts = e.yield ++ .symbol .closing :: rest ∧ e.value b = .ok w := by
  obtain ⟨e, w, t, rest, rfl, hv, -, h⟩ := expressionRead hp hn (whole_cons _ _) h
  obtain ⟨rfl, -⟩ := of_expect h
  exact ⟨e, w, rest, rfl, hv⟩

theorem rootRead {n : Nat} (hp : PrimaryRead b level n) {ts : List Token} (hn : ts.length ≤ n) {q : Pending}
    {outer : Enclosing} {v : Binary64} {left : Bool}
    (h : feed b level (.operand {} ((.argument .root, q) :: outer)) ts = .stop (.ok v) left) :
    ∃ (e : Expression) (w x : Binary64) (rest : List Token),
      ts = e.yield ++ .symbol .closing :: rest ∧ e.value b = .ok w ∧ w.squareRoot = .ok x := by
  obtain ⟨e, w, t, rest, rfl, hv, -, h⟩ := expressionRead hp hn (whole_cons _ _) h
  rcases hx : w.squareRoot with m | x
  · simp only [enclose, hx] at h
    cases h
  · simp only [enclose, hx] at h
    obtain ⟨rfl, -⟩ := of_expect h
    exact ⟨e, w, x, rest, rfl, hv, hx⟩

theorem of_exponentStep {base : Binary64} {q : Pending} {outer : Enclosing} {t : Token} {f : State → Step}
    {v : Binary64} {left : Bool} (h : (exponentStep b base q outer t).andThen f = .stop (.ok v) left) :
    ∃ (x : Exponent) (n : Nat), [t] = x.yield ∧ x.value b = .ok n ∧
      f (.closing base n q outer) = .stop (.ok v) left := by
  cases t with
  | number w =>
    rcases hn : w.toExponent with m | n
    · simp only [exponentStep, Production.exponentValue, Except.bind, hn] at h
      cases h
    · simp only [exponentStep, Production.exponentValue, Except.bind, hn] at h
      exact ⟨.number w, n, rfl, hn, h⟩
  | name name =>
    rcases hw : b.lookup name with m | w
    · simp only [exponentStep, Production.exponentValue, Except.bind, hw] at h
      cases h
    · rcases hn : w.toExponent with m | n
      · simp only [exponentStep, Production.exponentValue, Except.bind, hw, hn] at h
        cases h
      · simp only [exponentStep, Production.exponentValue, Except.bind, hw, hn] at h
        refine ⟨.name name, n, rfl, ?_, h⟩
        simp [Exponent.value, hw, hn, bind, Except.bind]
  | _ => cases h

theorem powerRead {n : Nat} (hp : PrimaryRead b level n) {ts : List Token} (hn : ts.length ≤ n) {q : Pending}
    {outer : Enclosing} {v : Binary64} {left : Bool}
    (h : feed b level (.operand {} ((.argument .power, q) :: outer)) ts = .stop (.ok v) left) :
    ∃ (e : Expression) (w : Binary64) (x : Exponent) (k : Nat) (rest : List Token),
      ts = e.yield ++ .symbol .comma :: (x.yield ++ .symbol .closing :: rest) ∧ e.value b = .ok w ∧
        x.value b = .ok k := by
  obtain ⟨e, w, t, rest, rfl, hv, -, h⟩ := expressionRead hp hn (whole_cons _ _) h
  obtain ⟨rfl, hcomma⟩ := of_expect h
  rcases rest with _ | ⟨t, rest⟩
  · cases hcomma
  obtain ⟨x, k, hy, hk, hclose⟩ := of_exponentStep hcomma
  rcases rest with _ | ⟨t', rest⟩
  · cases hclose
  obtain ⟨rfl, -⟩ := of_expect hclose
  refine ⟨e, w, x, k, rest, ?_, hv, hk⟩
  rw [← hy]
  rfl

theorem primaryRead (b : Bindings) (level : Level) (n : Nat) : PrimaryRead b level n := by
  induction n with
  | zero =>
    intro ts hn q outer v left h
    obtain rfl := List.eq_nil_of_length_eq_zero (Nat.le_zero.mp hn)
    cases h
  | succ n ih =>
    intro ts hn q outer v left h
    rcases ts with _ | ⟨t, ts⟩
    · cases h
    rw [List.length_cons] at hn
    have hn : ts.length ≤ n := Nat.le_of_succ_le_succ hn
    match t, h with
    | .number w, _ => exact ⟨.number w, w, ts, rfl, rfl⟩
    | .name name, h =>
      rcases hv : b.lookup name with m | w
      · simp only [feed, step, operandStep, hv] at h
        cases h
      · exact ⟨.name name, w, ts, rfl, hv⟩
    | .symbol .minus, h =>
      obtain ⟨p, w, rest, rfl, hv⟩ := ih ts hn _ _ _ _ h
      exact ⟨.minus p, w.neg, rest, rfl, by simp [Primary.value, hv, bind, Except.bind, pure, Except.pure]⟩
    | .symbol .plus, h =>
      obtain ⟨p, w, rest, rfl, hv⟩ := ih ts hn _ _ _ _ h
      exact ⟨.plus p, w, rest, rfl, hv⟩
    | .symbol .opening, h =>
      obtain ⟨e, w, rest, rfl, hv⟩ := groupRead ih hn h
      exact ⟨.group e, w, rest, by simp [Primary.yield], hv⟩
    | .keyword .root, h =>
      rcases ts with _ | ⟨t, ts⟩
      · cases h
      obtain ⟨rfl, hopen⟩ := of_expect h
      obtain ⟨e, w, x, rest, rfl, hv, hx⟩ := rootRead ih (Nat.le_of_succ_le hn) hopen
      exact ⟨.root e, x, rest, by simp [Primary.yield], by simp [Primary.value, hv, hx, bind, Except.bind]⟩
    | .keyword .power, h =>
      rcases ts with _ | ⟨t, ts⟩
      · cases h
      obtain ⟨rfl, hopen⟩ := of_expect h
      obtain ⟨e, w, x, k, rest, rfl, hv, hk⟩ := powerRead ih (Nat.le_of_succ_le hn) hopen
      refine ⟨.power e x, w.power k, rest, by simp [Primary.yield], ?_⟩
      simp [Primary.value, hv, hk, bind, Except.bind, pure, Except.pure]

end Reckoner.Calculation
