/-
  Reckoner.Proofs.Worth — what has been read, and what it is worth.

  A statement that is read in part is a draft; its phase holds the values of the trees that are
  complete in it. A token goes on with both, or with neither: a mistake is made at a token that
  goes on with no draft, or where a tree that is complete has no value.

  - `turns_step`: all that a token can do with what has been read.
  - `stands_feed`: a draft whose trees have values is read to the phase of these values.
-/

import Reckoner.Proofs.Drafts
import Reckoner.Proofs.Outcome
import Reckoner.Proofs.Phases

namespace Reckoner

open Grammar
open Calculation (Bracket BuiltIn Pending Enclosing State eq_of_apply eq_of_lookup eq_of_squareRoot not_mem_operators)

/-! ## Mistakes at a token -/

/-- The mistake is that `t` was found where something else is due. -/
inductive Mistake.Refuses : Mistake → Token → Prop
  | operand (t : Token) : Refuses (.operandExpected t) t
  | symbol (wanted : Symbol) (t : Token) : Refuses (.expected wanted t) t
  | name (t : Token) : Refuses (.nameExpected t) t
  | exponent (t : Token) : Refuses (.exponentNoNumber t) t
  | ended : Refuses .inputEnded .endOfInput

namespace Grammar

/-- The last of the tokens completes what has no value: a name that is not bound, an exponent, or
    a zero behind a sign that divides. -/
inductive Fault (b : Bindings) : List Token → Mistake → Prop
  | undeclared (before : List Token) {n : String} (h : b.isBound n = false) :
    Fault b (before ++ [.name n]) (.undeclared n)
  | exponent (before : List Token) {x : Exponent} {m : Mistake} (h : x.value b = .error m) :
    Fault b (before ++ x.yield) m
  | division (before : List Token) {op : ProductOperator} {p : Primary} {v : Binary64} (hop : op ≠ .times)
    (hp : p.value b = .ok v) (hv : v.isZero = true) :
    Fault b (before ++ .symbol op.symbol :: p.yield) .divisionByZero

variable {b : Bindings}

theorem Fault.prepend {w : List Token} {m : Mistake} (h : Fault b w m) (v : List Token) : Fault b (v ++ w) m := by
  cases h with
  | undeclared before h =>
    rw [← List.append_assoc]
    exact .undeclared _ h
  | exponent before h =>
    rw [← List.append_assoc]
    exact .exponent _ h
  | division before hop hp hv =>
    rw [← List.append_assoc]
    exact .division _ hop hp hv

/-! ## Values of drafts -/

/-- An operand and the operator behind it, and what they are worth. -/
inductive Worth {Tree Op : Type} (value : Tree → Except Mistake Binary64) :
    Option (Tree × Op) → Option (Binary64 × Op) → Prop
  | none : Worth value none none
  | some {tree : Tree} {v : Binary64} (op : Op) (h : value tree = .ok v) : Worth value (some (tree, op)) (some (v, op))

/-- An odd number of minus signs. -/
def negates : List SumOperator → Bool
  | [] => false
  | .plus :: signs => negates signs
  | .minus :: signs => !negates signs

section

variable (b : Bindings)

structure Waits (q : Waiting) (p : Pending) : Prop where
  sum : Worth (Expression.value b) q.sum p.sum
  product : Worth (Term.value b) q.product p.product
  negate : p.negate = negates q.signs

inductive Surrounds : Around → Enclosing → Prop
  | nil : Surrounds [] []
  | cons (k : Bracket) {q : Waiting} {p : Pending} {outer : Around} {enclosing : Enclosing} (h : Waits b q p)
    (ho : Surrounds outer enclosing) : Surrounds ((k, q) :: outer) ((k, p) :: enclosing)

/-- The state of a calculation that has read the left part of an expression. -/
inductive Begun.Stands : Begun → State → Prop
  | operand {q : Waiting} {p : Pending} {outer : Around} {enclosing : Enclosing} (h : Waits b q p)
    (ho : Surrounds b outer enclosing) : Stands (.operand q outer) (.operand p enclosing)
  | opening (f : BuiltIn) {q : Waiting} {p : Pending} {outer : Around} {enclosing : Enclosing} (h : Waits b q p)
    (ho : Surrounds b outer enclosing) : Stands (.opening f q outer) (.opening f p enclosing)
  | operator {sum : Option (Expression × SumOperator)} {worth : Option (Binary64 × SumOperator)} {t : Term}
    {v : Binary64} {outer : Around} {enclosing : Enclosing} (hs : Worth (Expression.value b) sum worth)
    (ht : t.value b = .ok v) (ho : Surrounds b outer enclosing) :
    Stands (.operator sum t outer) (.operator worth v enclosing)
  | exponent {base : Expression} {v : Binary64} {q : Waiting} {p : Pending} {outer : Around} {enclosing : Enclosing}
    (hv : base.value b = .ok v) (h : Waits b q p) (ho : Surrounds b outer enclosing) :
    Stands (.exponent base q outer) (.exponent v p enclosing)
  | closing {base : Expression} {v : Binary64} {x : Exponent} {n : Nat} {q : Waiting} {p : Pending} {outer : Around}
    {enclosing : Enclosing} (hv : base.value b = .ok v) (hn : x.value b = .ok n) (h : Waits b q p)
    (ho : Surrounds b outer enclosing) : Stands (.closing base x q outer) (.closing v n p enclosing)

inductive Draft.Stands : Draft → Phase → Prop
  | start : Stands .start .start
  | declared : Stands .declared .declared
  | named (name : String) : Stands (.named name) (.named name)
  | within (name : Option String) {e : Begun} {s : State} (h : e.Stands b s) : Stands (.within name e) (.within name s)

end

theorem negates_append (signs : List SumOperator) (op : SumOperator) :
    negates (signs ++ [op]) = (negates [op] ^^ negates signs) := by
  induction signs with
  | nil => simp [negates]
  | cons first signs ih =>
    cases first with
    | plus => exact ih
    | minus => simp [negates, ih]

/-- Each minus sign changes the sign of the value. -/
theorem value_signed {p : Primary} {v : Binary64} (h : p.value b = .ok v) (signs : List SumOperator) :
    (signed signs p).value b = .ok (if negates signs then v.neg else v) := by
  induction signs with
  | nil => exact h
  | cons op signs ih =>
    cases op with
    | plus => exact ih
    | minus =>
      rw [signed, Primary.value, ih]
      show Except.ok (Binary64.neg _) = _
      rcases hn : negates signs with _ | _
      · simp [negates, hn]
      · simp [negates, hn, Binary64.neg_neg]

theorem value_whole {sum : Option (Expression × SumOperator)} {worth : Option (Binary64 × SumOperator)} {t : Term}
    {v : Binary64} (hs : Worth (Expression.value b) sum worth) (ht : t.value b = .ok v) :
    (whole sum t).value b = .ok (Calculation.total worth v) := by
  cases hs with
  | none => simp [whole, Expression.value, Sums.value, ht, bind, Except.bind, Calculation.total]
  | some op h => simp [whole, Expression.value_snoc, h, ht, bind, Except.bind, pure, Except.pure, Calculation.total]

theorem Waits.unset : Waits b {} {} := ⟨.none, .none, rfl⟩

/-! ## One token -/

/-- All that the token `t` can do with a draft: it goes on with it, with a mistake if the tree it
    completes has no value; it does not; or it ends an expression, which may be the argument of a
    root that does not exist. -/
inductive Turns (b : Bindings) (draft : Draft) (t : Token) : Phase.Step → Prop
  | on {next : Draft} {p : Phase} (go : draft.next? t = some next) (h : next.Stands b p) : Turns b draft t (.more p)
  | fault {next : Draft} {m : Mistake} (go : draft.next? t = some next) (h : Fault b (draft.yield ++ [t]) m) :
    Turns b draft t (.stop (.error m) false)
  | impossible {m : Mistake} (go : draft.next? t = none) (due : ¬ draft.IsWhole) (h : m.Refuses t) :
    Turns b draft t (.stop (.error m) false)
  | missing {name : String} (h : draft = .named name) (ht : t ≠ .symbol .equals) :
    Turns b draft t (.stop (.error (.equalsMissing name)) false)
  | root {name : Option String} {sum : Option (Expression × SumOperator)} {last : Term} {q : Waiting} {outer : Around}
    {v : Binary64} {m : Mistake} (h : draft = .within name (.operator sum last ((.argument .root, q) :: outer)))
    (hv : (whole sum last).value b = .ok v) (hm : v.squareRoot = .error m) (ht : t ∉ operators) :
    Turns b draft t (.stop (.error m) true)
  | done {name : Option String} {sum : Option (Expression × SumOperator)} {last : Term} {v : Binary64}
    (h : draft = .within name (.operator sum last [])) (hv : (whole sum last).value b = .ok v) (ht : t ∉ operators) :
    Turns b draft t (.stop (Phase.bound b name (.ok v)) true)

section

variable {name : Option String} {e : Begun} {t : Token} {q : Waiting} {p : Pending} {outer : Around}
  {enclosing : Enclosing}

theorem next?_within {next : Begun} (h : e.next? t = some next) :
    (Draft.within name e).next? t = some (.within name next) := congrArg (Option.map _) h

theorem turns_more {next : Begun} {s : State} (go : e.next? t = some next) (h : next.Stands b s) :
    Turns b (.within name e) t (Phase.ofStep b name (.more s)) := .on (next?_within go) (.within name h)

theorem turns_fault {next : Begun} {w : List Token} {m : Mistake} (go : e.next? t = some next) (hy : next.yield = w)
    (h : Fault b w m) : Turns b (.within name e) t (Phase.ofStep b name (.fail m)) := by
  have hd : (Draft.within name e).next? t = some (.within name next) := next?_within go
  rw [Calculation.Step.fail, Phase.ofStep, Phase.bound_error]
  refine .fault hd ?_
  rw [← Draft.yield_next? hd]
  subst hy
  rcases name with _ | n
  · exact h
  · exact h.prepend [.keyword .declare, .name n, .symbol .equals]

theorem turns_impossible {m : Mistake} (go : e.next? t = none) (due : ¬ (Draft.within name e).IsWhole)
    (h : m.Refuses t) : Turns b (.within name e) t (Phase.ofStep b name (.fail m)) := by
  rw [Calculation.Step.fail, Phase.ofStep, Phase.bound_error]
  exact .impossible (congrArg (Option.map _) go) due h

/-- A primary that has a value is read, and with it the product before it, unless that divides by
    zero. -/
theorem turns_complete (hq : Waits b q p) (ho : Surrounds b outer enclosing) {x : Primary} {v : Binary64}
    (hx : x.value b = .ok v) (go : e.next? t = some (.complete q outer x)) :
    Turns b (.within name e) t (Phase.ofStep b name (Calculation.complete .expression p enclosing v)) := by
  obtain ⟨sum, product, signs⟩ := q
  obtain ⟨hs, hp, hn⟩ := hq
  have hsigned := value_signed hx signs
  simp only [← hn] at hsigned
  unfold Calculation.complete
  rcases p with ⟨_, product', negate⟩
  cases hp with
  | none =>
    refine turns_more go (.operator hs ?_ ho)
    simp [Waiting.term, Term.value, Products.value, hsigned, bind, Except.bind]
  | @some left u op hl =>
    dsimp only at hsigned ⊢
    rcases ha : op.apply u (if negate then v.neg else v) with m | w
    · obtain ⟨rfl, hop, hz⟩ := eq_of_apply ha
      refine turns_fault go ?_ (.division (aroundYield outer ++ (sumYield sum ++ left.yield)) hop hsigned hz)
      simp [yield_complete, Waiting.yield, productYield]
    · simp only [reduceCtorEq, false_and, if_false]
      refine turns_more go (.operator hs ?_ ho)
      simp [Waiting.term, Term.value_snoc, hl, hsigned, ha, bind, Except.bind]

theorem turns_expect {wanted : Symbol} {next : Calculation.Step} (due : ¬ (Draft.within name e).IsWhole)
    (yes : t = .symbol wanted → Turns b (.within name e) t (Phase.ofStep b name next))
    (no : t ≠ .symbol wanted → e.next? t = none) :
    Turns b (.within name e) t (Phase.ofStep b name (Calculation.expect wanted t next)) := by
  unfold Calculation.expect
  split
  · exact yes (by assumption)
  · rename_i ht
    split
    · rename_i hend
      subst hend
      exact turns_impossible (no ht) due .ended
    · exact turns_impossible (no ht) due (.symbol wanted t)

theorem Waits.sign (h : Waits b q p) (op : SumOperator) :
    Waits b { q with signs := q.signs ++ [op] } { p with negate := negates [op] ^^ p.negate } := by
  refine ⟨h.sum, h.product, ?_⟩
  rw [negates_append, h.negate]

theorem turns_operand (h : Waits b q p) (ho : Surrounds b outer enclosing) (t : Token) :
    Turns b (.within name (.operand q outer)) t
      (Phase.ofStep b name (Calculation.operandStep b .expression p enclosing t)) := by
  have refused {m : Mistake} (go : Begun.next? (.operand q outer) t = none) (hm : m.Refuses t) :
      Turns b (.within name (.operand q outer)) t (Phase.ofStep b name (.fail m)) := turns_impossible go id hm
  cases t with
  | number v => exact turns_complete (x := .number v) h ho rfl rfl
  | name n =>
    rcases hv : b.lookup n with m | v
    · obtain rfl := eq_of_lookup hv
      have hb : b.isBound n = false := by
        rw [← Bindings.isSome_value?]
        unfold Bindings.lookup at hv
        split at hv
        · cases hv
        · rename_i hnone
          rw [hnone]
          rfl
      simp only [Calculation.operandStep, hv]
      refine turns_fault rfl ?_ (.undeclared (aroundYield outer ++ q.yield) hb)
      simp [yield_complete, Primary.yield]
    · simp only [Calculation.operandStep, hv]
      exact turns_complete (x := .name n) h ho hv rfl
  | keyword k =>
    cases k with
    | root => exact turns_more rfl (.opening .root h ho)
    | power => exact turns_more rfl (.opening .power h ho)
    | declare => exact refused rfl (.operand _)
    | exit => exact refused rfl (.operand _)
  | symbol s =>
    cases s with
    | plus => exact turns_more rfl (.operand (by simpa [negates] using h.sign .plus) ho)
    | minus => exact turns_more rfl (.operand (by simpa [negates] using h.sign .minus) ho)
    | opening => exact turns_more rfl (.operand .unset (.cons .group h ho))
    | star => exact refused rfl (.operand _)
    | slash => exact refused rfl (.operand _)
    | percent => exact refused rfl (.operand _)
    | closing => exact refused rfl (.operand _)
    | comma => exact refused rfl (.operand _)
    | equals => exact refused rfl (.operand _)
  | endOfInput => exact refused rfl .ended

theorem exponentStep_eq {x : Exponent} (hy : x.yield = [t]) (v : Binary64) (p : Pending) (enclosing : Enclosing) :
    (∀ m, x.value b = .error m → Calculation.exponentStep b v p enclosing t = .fail m) ∧
      ∀ n, x.value b = .ok n → Calculation.exponentStep b v p enclosing t = .more (.closing v n p enclosing) := by
  cases x with
  | number w =>
    obtain rfl : Token.number w = t := List.singleton_inj.mp hy
    have hbind : (Except.ok w).bind Binary64.toExponent = (Exponent.number w).value b := rfl
    constructor
    · intro m hm
      simp only [Calculation.exponentStep, Production.exponentValue, hbind, hm]
    · intro n hn
      simp only [Calculation.exponentStep, Production.exponentValue, hbind, hn]
  | name name =>
    obtain rfl : Token.name name = t := List.singleton_inj.mp hy
    have hbind : (b.lookup name).bind Binary64.toExponent = (Exponent.name name).value b := rfl
    constructor
    · intro m hm
      simp only [Calculation.exponentStep, Production.exponentValue, hbind, hm]
    · intro n hn
      simp only [Calculation.exponentStep, Production.exponentValue, hbind, hn]

theorem turns_exponent {base : Expression} {v : Binary64} (hv : base.value b = .ok v) (h : Waits b q p)
    (ho : Surrounds b outer enclosing) (t : Token) :
    Turns b (.within name (.exponent base q outer)) t
      (Phase.ofStep b name (Calculation.exponentStep b v p enclosing t)) := by
  have hx {x : Exponent} (hy : x.yield = [t])
      (go : Begun.next? (.exponent base q outer) t = some (.closing base x q outer)) :
      Turns b (.within name (.exponent base q outer)) t
        (Phase.ofStep b name (Calculation.exponentStep b v p enclosing t)) := by
    obtain ⟨herror, hok⟩ := exponentStep_eq (b := b) hy v p enclosing
    rcases hn : x.value b with m | n
    · rw [herror m hn]
      refine turns_fault go ?_ (.exponent (aroundYield outer ++ (q.yield ++ baseYield base)) hn)
      simp [Begun.yield, hy]
    · rw [hok n hn]
      exact turns_more go (.closing hv hn h ho)
  have refused (go : Begun.next? (.exponent base q outer) t = none) :
      Turns b (.within name (.exponent base q outer)) t (Phase.ofStep b name (.fail (.exponentNoNumber t))) :=
    turns_impossible go id (.exponent t)
  cases t with
  | number w => exact hx (x := .number w) rfl rfl
  | name n => exact hx (x := .name n) rfl rfl
  | keyword k => exact refused rfl
  | symbol s => exact refused rfl
  | endOfInput => exact refused rfl

/-- At a token that does not go on with an expression, the expression is what it is read for. -/
theorem turns_enclose {sum : Option (Expression × SumOperator)} {last : Term} {v : Binary64}
    (hv : (whole sum last).value b = .ok v) (ho : Surrounds b outer enclosing) (ht : t ∉ operators) :
    Turns b (.within name (.operator sum last outer)) t
      (Phase.ofStep b name (Calculation.enclose .expression v t enclosing)) := by
  obtain ⟨hproduct, hsum⟩ := not_mem_operators.mp ht
  have go : Begun.next? (.operator sum last outer) t = Begun.encloseNext? (whole sum last) t outer := by
    simp only [Begun.next?, Begun.operatorNext?, hproduct, hsum]
  cases ho with
  | nil => exact .done rfl hv ht
  | @cons k q p outer enclosing h ho =>
    cases k with
    | group =>
      refine turns_expect id (fun hc => ?_) fun hc => ?_
      · exact turns_complete (x := .group (whole sum last)) h ho hv (by rw [go, hc]; rfl)
      · rw [go]
        exact if_neg hc
    | argument f =>
      cases f with
      | root =>
        unfold Calculation.enclose
        rcases hr : v.squareRoot with m | w
        · rw [Phase.ofStep, Phase.bound_error]
          exact .root rfl hv hr ht
        · refine turns_expect id (fun hc => ?_) fun hc => ?_
          · have hx : (Primary.root (whole sum last)).value b = .ok w := by
              simp [Primary.value, hv, hr, bind, Except.bind]
            exact turns_complete h ho hx (by rw [go, hc]; rfl)
          · rw [go]
            exact if_neg hc
      | power =>
        refine turns_expect id (fun hc => ?_) fun hc => ?_
        · exact turns_more (by rw [go, hc]; rfl) (.exponent hv h ho)
        · rw [go]
          exact if_neg hc

theorem turns_operator {sum : Option (Expression × SumOperator)} {worth : Option (Binary64 × SumOperator)} {last : Term}
    {v : Binary64} (hs : Worth (Expression.value b) sum worth) (hv : last.value b = .ok v)
    (ho : Surrounds b outer enclosing) (t : Token) :
    Turns b (.within name (.operator sum last outer)) t
      (Phase.ofStep b name (Calculation.operatorStep .expression worth v enclosing t)) := by
  have hwhole := value_whole hs hv
  unfold Calculation.operatorStep
  rcases hproduct : t.productOperator? with _ | op
  · rcases hsum : t.sumOperator? with _ | op
    · have ht : t ∉ operators := not_mem_operators.mpr ⟨hproduct, hsum⟩
      exact turns_enclose hwhole ho ht
    · have go : Begun.next? (.operator sum last outer) t = some (.operand { sum := some (whole sum last, op) } outer) := by
        simp only [Begun.next?, Begun.operatorNext?, hproduct, hsum]
      exact turns_more go (.operand ⟨.some op hwhole, .none, rfl⟩ ho)
  · have go : Begun.next? (.operator sum last outer) t = some (.operand { sum, product := some (last, op) } outer) := by
      simp only [Begun.next?, Begun.operatorNext?, hproduct]
    exact turns_more go (.operand ⟨hs, .some op hv, rfl⟩ ho)

theorem turns_begun {s : State} (h : e.Stands b s) (t : Token) :
    Turns b (.within name e) t (Phase.ofStep b name (Calculation.step b .expression s t)) := by
  cases h with
  | operand h ho => exact turns_operand h ho t
  | opening f h ho =>
    refine turns_expect id (fun hc => ?_) fun hc => if_neg hc
    exact turns_more (if_pos hc) (.operand .unset (.cons (.argument f) h ho))
  | operator hs ht ho => exact turns_operator hs ht ho t
  | exponent hv h ho => exact turns_exponent hv h ho t
  | @closing base v x n q p outer enclosing hv hn h ho =>
    refine turns_expect id (fun hc => ?_) fun hc => if_neg hc
    have hx : (Primary.power base x).value b = .ok (v.power n) := by
      simp [Primary.value, hv, hn, bind, Except.bind, pure, Except.pure]
    exact turns_complete h ho hx (if_pos hc)

end

/-- A statement that is no declaration is an expression from its first token on. -/
theorem turns_start {t : Token} (ht : t ≠ .keyword .declare) {step : Phase.Step}
    (h : Turns b (.within none .start) t step) : Turns b .start t step := by
  have go : Draft.next? .start t = Draft.next? (.within none .start) t := if_neg ht
  cases h with
  | on hg hs => exact .on (go.trans hg) hs
  | fault hg hf => exact .fault (go.trans hg) hf
  | impossible hg due hm => exact .impossible (go.trans hg) id hm
  | missing hd => cases hd
  | root hd => cases hd
  | done hd => cases hd

/-- What a token makes of a phase it makes of the draft. -/
theorem turns_step {draft : Draft} {p : Phase} (h : draft.Stands b p) (t : Token) :
    Turns b draft t (p.step b .expression t) := by
  cases h with
  | start =>
    by_cases ht : t = .keyword .declare
    · subst ht
      exact .on rfl .declared
    · rw [Phase.step_start _ _ ht]
      exact turns_start ht (turns_begun (.operand .unset .nil) t)
  | declared =>
    cases t with
    | name n => exact .on rfl (.named n)
    | endOfInput => exact .impossible rfl id .ended
    | number v => exact .impossible rfl id (.name _)
    | keyword k => exact .impossible rfl id (.name _)
    | symbol s => exact .impossible rfl id (.name _)
  | named name =>
    by_cases ht : t = .symbol .equals
    · subst ht
      exact .on rfl (.within (some name) (.operand .unset .nil))
    · have hstep : Phase.step b .expression (.named name) t = .stop (.error (.equalsMissing name)) false := if_neg ht
      rw [hstep]
      exact .missing rfl ht
  | within name h => exact turns_begun h t

/-! ## Whole runs -/

/-- What has been read is in the phase of the draft that has been read. -/
theorem stands_reached {first s : Scanner} {w : List Token} {p : Phase}
    (h : Reached b .expression .start first w p s) :
    ∃ draft : Draft, Draft.start.read w = some draft ∧ draft.Stands b p := by
  induction h with
  | none => exact ⟨.start, rfl, .start⟩
  | @more w p next s after t _ _ hstep ih =>
    obtain ⟨draft, hr, hs⟩ := ih
    have hturns := turns_step hs t
    rw [hstep] at hturns
    cases hturns with
    | on go hn =>
      refine ⟨_, ?_, hn⟩
      rw [Draft.read_append hr, Draft.read_singleton, go]

/-! ## A draft whose trees have values is read -/

section

open Calculation

variable {level : Level} {q : Waiting} {p : Pending} {outer : Around} {enclosing : Enclosing}

theorem feed_sumYield {sum : Option (Expression × SumOperator)} {worth : Option (Binary64 × SumOperator)}
    (h : Worth (Expression.value b) sum worth) (hw : Whole level enclosing) :
    feed b level (.operand {} enclosing) (sumYield sum) = .more (.operand { sum := worth } enclosing) := by
  cases h with
  | none => rfl
  | some op h =>
    obtain ⟨before, last, hf, rfl⟩ := feed_expression h hw
    rw [sumYield, feed_append, hf, andThen_more]
    simp only [feed, step, operatorStep, productOperator?_sum, sumOperator?_symbol, hw.not_term, if_false, andThen_more]
    rfl

theorem feed_productYield {product : Option (Term × ProductOperator)} {worth : Option (Binary64 × ProductOperator)}
    (h : Worth (Term.value b) product worth) (hw : Whole level enclosing) (sum : Option (Binary64 × SumOperator)) :
    feed b level (.operand { sum } enclosing) (productYield product) =
      .more (.operand { sum, product := worth } enclosing) := by
  cases h with
  | none => rfl
  | some op h =>
    rw [productYield, feed_append, feed_term h hw, andThen_more]
    simp only [feed, step, operatorStep, productOperator?_symbol, andThen_more]

theorem feed_signsYield (signs : List SumOperator) (p : Pending) :
    feed b level (.operand p enclosing) (signsYield signs) =
      .more (.operand { p with negate := negates signs ^^ p.negate } enclosing) := by
  induction signs generalizing p with
  | nil => simp [signsYield, feed, negates]
  | cons op signs ih =>
    cases op with
    | plus => exact ih p
    | minus =>
      refine (ih { p with negate := !p.negate }).trans ?_
      simp [negates]

/-- What waits for a primary is read. -/
theorem feed_waits (h : Waits b q p) (hw : Whole level enclosing) :
    feed b level (.operand {} enclosing) q.yield = .more (.operand p enclosing) := by
  obtain ⟨hs, hp, hn⟩ := h
  rw [Waiting.yield, feed_append, feed_sumYield hs hw, andThen_more, feed_append, feed_productYield hp hw, andThen_more,
    feed_signsYield]
  simp [← hn]

theorem feed_opened (k : Bracket) (p : Pending) :
    feed b level (.operand p enclosing) (opened k) = .more (.operand {} ((k, p) :: enclosing)) := by
  rcases k with _ | _ | _ <;> rfl

theorem feed_surrounds (h : Surrounds b outer enclosing) :
    feed b .expression .start (aroundYield outer) = .more (.operand {} enclosing) := by
  induction h with
  | nil => rfl
  | cons k h _ ih =>
    rw [aroundYield, feed_append, ih, andThen_more, feed_append, feed_waits h (.inl rfl), andThen_more, feed_opened]

theorem feed_waiting (h : Waits b q p) (ho : Surrounds b outer enclosing) (w : List Token) :
    feed b .expression .start (aroundYield outer ++ (q.yield ++ w)) =
      feed b .expression (.operand p enclosing) w := by
  rw [feed_append, feed_surrounds ho, andThen_more, feed_append, feed_waits h (.inl rfl), andThen_more]

theorem feed_base {base : Expression} {v : Binary64} (hv : base.value b = .ok v) (w : List Token) :
    feed b .expression (.operand p enclosing) (baseYield base ++ w) =
      feed b .expression (.exponent v p enclosing) w := by
  have hc : Token.symbol .comma ∉ operators := by decide
  rw [baseYield, List.cons_append, List.cons_append, List.append_assoc]
  exact feed_enclose hv (whole_cons (.argument .power, p) enclosing) hc w

/-- Fed with the left part of an expression, a calculation comes to the values of its trees. -/
theorem feed_stands {e : Begun} {s : State} (h : e.Stands b s) : feed b .expression .start e.yield = .more s := by
  cases h with
  | @operand q p outer enclosing h ho =>
    have hf := feed_waiting h ho []
    rwa [List.append_nil] at hf
  | opening f h ho =>
    rw [Begun.yield, feed_waiting h ho]
    cases f <;> rfl
  | @operator sum worth t v outer enclosing hs ht ho =>
    rw [Begun.yield, feed_append, feed_surrounds ho, andThen_more, feed_append, feed_sumYield hs (.inl rfl), andThen_more,
      feed_term ht (.inl rfl)]
  | @exponent base v q p outer enclosing hv h ho =>
    have hf : feed b .expression (.operand p enclosing) (baseYield base ++ []) = .more (.exponent v p enclosing) :=
      feed_base hv []
    rw [List.append_nil] at hf
    rw [Begun.yield, feed_waiting h ho, hf]
  | closing hv hn h ho => rw [Begun.yield, feed_waiting h ho, feed_base hv, feed_exponent hn]

end

section

open Scanner Calculation

variable {level : Level} {origin : Phase} {first s : Scanner}

/-- A first lexeme that leads to another phase is read. -/
theorem reached_more {w : List Token} {p next : Phase} (h : Reached b level origin first w p s) (hu : s.Unbroken)
    {t : Token} {ls : List Lexeme} (hl : s.lexemes = .token t :: ls) (hs : p.step b level t = .more next) :
    Reached b level origin first (w ++ [t]) next s.next.2 ∧ s.next.2.Unbroken ∧ s.next.2.lexemes = ls := by
  obtain ⟨hn, hu', hl'⟩ := Desk.next_of_lexemes hu hl
  exact ⟨h.more hn hs, hu', hl'⟩

theorem reached_feed {name : Option String} {w ts : List Token} {state next : State} {rest : List Lexeme}
    (h : Reached b level origin first w (.within name state) s) (hu : s.Unbroken)
    (hl : s.lexemes = ts.map .token ++ rest) (hf : feed b level state ts = .more next) :
    Reached b level origin first (w ++ ts) (.within name next) (s.after ts.length) := by
  induction ts generalizing w state s with
  | nil =>
    cases hf
    rw [List.append_nil]
    exact h
  | cons t ts ih =>
    rw [feed] at hf
    rcases hs : Calculation.step b level state t with middle | ⟨result, left⟩
    · rw [hs, andThen_more] at hf
      obtain ⟨h', hu', hl'⟩ := reached_more h hu hl (Phase.ofStep_more hs)
      have hr := ih h' hu' hl' hf
      rwa [List.append_assoc] at hr
    · rw [hs] at hf
      cases hf

/-- A draft whose trees have values is read if its yield is what the scanner reads. -/
theorem reached_stands {draft : Draft} {p : Phase} (h : draft.Stands b p) (hne : draft.yield ≠ []) (hu : s.Unbroken)
    {rest : List Lexeme} (hl : s.lexemes = draft.yield.map .token ++ rest) :
    Reached b .expression .start s draft.yield p (s.after draft.yield.length) := by
  have h₀ : Reached b .expression .start s [] .start s := .none
  cases h with
  | start => exact absurd rfl hne
  | declared =>
    obtain ⟨h₁, -, -⟩ := reached_more h₀ hu hl (Phase.step_declare _ _)
    exact h₁
  | named name =>
    obtain ⟨h₁, hu₁, hl₁⟩ := reached_more h₀ hu hl (Phase.step_declare _ _)
    obtain ⟨h₂, -, -⟩ := reached_more h₁ hu₁ hl₁ rfl
    exact h₂
  | @within name e state h =>
    have hf := feed_stands h
    rcases name with _ | name
    · -- the first token is read as that of a statement
      rw [Draft.yield] at hne hl ⊢
      generalize e.yield = ts at hne hl hf ⊢
      rcases ts with _ | ⟨t, ts⟩
      · exact absurd rfl hne
      rw [feed] at hf
      have ht : t ≠ .keyword .declare := by
        rintro rfl
        cases hf
      rcases hs : Calculation.step b .expression .start t with middle | ⟨result, left⟩
      · rw [hs, andThen_more] at hf
        have hstep := (Phase.step_start b .expression ht).trans (Phase.ofStep_more hs)
        obtain ⟨h₁, hu₁, hl₁⟩ := reached_more h₀ hu hl hstep
        exact reached_feed h₁ hu₁ hl₁ hf
      · rw [hs] at hf
        cases hf
    · obtain ⟨h₁, hu₁, hl₁⟩ := reached_more h₀ hu hl (Phase.step_declare _ _)
      obtain ⟨h₂, hu₂, hl₂⟩ := reached_more h₁ hu₁ hl₁ rfl
      obtain ⟨h₃, hu₃, hl₃⟩ := reached_more h₂ hu₂ hl₂ rfl
      exact reached_feed h₃ hu₃ hl₃ hf

end

end Grammar

end Reckoner
