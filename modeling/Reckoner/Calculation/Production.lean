/-
  Reckoner.Calculation.Production — the productions of the grammar.

  An expression is calculated while it is read. Each production asks for tokens until it has its
  value. A primary ends with its last token. A term and an expression end at the first token that
  does not go on with them, and put it back for what follows:

      expression := term (("+" | "-") term)*
      term       := primary (("*" | "/" | "%") primary)*
      primary    := number | name | "(" expression ")" | ("+" | "-") primary
                  | "sqrt" "(" expression ")" | "pow" "(" expression "," (number | name) ")"

  Anything that fails, a read, a token that is not wanted, an operation or the putting back of a
  token, is passed on at once.

  The productions call each other and themselves. What each leaves to read is part of its result, so
  that a call behind another one is seen to have less to read than the first had.

  - `unread_expression_lt`: an expression takes the token it begins with.
-/

import Reckoner.Bindings
import Reckoner.Operation
import Reckoner.Scanner

namespace Reckoner

/-- How much of the grammar is calculated. -/
inductive Calculation.Level where
  | primary
  | term
  | expression
  deriving DecidableEq

namespace Production

open Scanner (heldSize)

/-- What was read: the answer, and the scanner behind it, which has at most `n` left to read. -/
structure Result (n : Nat) (α : Type) where
  answer : Except Failure α
  scanner : Scanner
  unread_le : scanner.unread ≤ n

namespace Result

variable {α β : Type} {m n : Nat}

def ok (v : α) (s : Scanner) : Result s.unread α := ⟨.ok v, s, Nat.le_refl _⟩

/-- A mistake is noticed on the line where the scanner is. -/
def check (r : Except Mistake α) (s : Scanner) : Result s.unread α :=
  ⟨r.mapError (.mistake s.line), s, Nat.le_refl _⟩

def within (h : m ≤ n) (r : Result m α) : Result n α := ⟨r.answer, r.scanner, Nat.le_trans r.unread_le h⟩

@[simp] theorem answer_within (h : m ≤ n) (r : Result m α) : (r.within h).answer = r.answer := rfl

@[simp] theorem scanner_within (h : m ≤ n) (r : Result m α) : (r.within h).scanner = r.scanner := rfl

/-- Goes on with what was read, and passes on a failure. -/
def andThen (r : Result n α) (go : α → (s : Scanner) → s.unread ≤ n → Result s.unread β) : Result n β :=
  match r with
  | ⟨.ok v, s, h⟩ => (go v s h).within h
  | ⟨.error f, s, h⟩ => ⟨.error f, s, h⟩

end Result

def next (s : Scanner) : Result s.unread Token := ⟨s.next.1, s.next.2, Scanner.unread_next_le s⟩

/-- Goes on with the next token. It counts for what was there to read, whether it is put back or
    not. -/
def withNext {α : Type} (s : Scanner)
    (go : (t : Token) → (after : Scanner) → heldSize (some t) + after.unread ≤ s.unread → Result s.unread α) :
    Result s.unread α :=
  match h : s.next with
  | (.ok t, after) => go t after (Scanner.unread_token_le h)
  | (.error f, after) => ⟨.error f, after, by
      have hle := Scanner.unread_next_le s
      rwa [h] at hle⟩

def putBack {n : Nat} (t : Token) (s : Scanner) (h : heldSize (some t) + s.unread ≤ n) : Result n Unit :=
  ⟨(s.putBack t).1, (s.putBack t).2, Nat.le_trans (Scanner.unread_putBack_le t s) h⟩

/-- The token that must come next. -/
def expect (wanted : Symbol) (s : Scanner) : Result s.unread Unit :=
  (next s).andThen fun t s _ =>
    if t = .symbol wanted then .ok () s
    else if t = .endOfInput then .check (.error .inputEnded) s
    else .check (.error (.expected wanted t)) s

/-- The number that a token stands for as an exponent. -/
def exponentValue (b : Bindings) : Token → Except Mistake Binary64
  | .number v => .ok v
  | .name n => b.lookup n
  | t => .error (.exponentNoNumber t)

def exponent (b : Bindings) (s : Scanner) : Result s.unread Nat :=
  (next s).andThen fun t s _ =>
    (Result.check (exponentValue b t) s).andThen fun v s _ => .check v.toExponent s

theorem le_of_token {t : Token} {m n : Nat} (h : heldSize (some t) + m ≤ n) : m ≤ n :=
  Nat.le_trans (Nat.le_add_left _ _) h

theorem lt_of_token {t : Token} {m n : Nat} (h : heldSize (some t) + m ≤ n) (ht : t ≠ .endOfInput) : m < n := by
  simp only [heldSize, if_neg ht] at h
  omega

theorem ne_end_of_productOperator? {t : Token} {op : ProductOperator} (h : t.productOperator? = some op) :
    t ≠ .endOfInput := by
  rintro rfl
  cases h

theorem ne_end_of_sumOperator? {t : Token} {op : SumOperator} (h : t.sumOperator? = some op) : t ≠ .endOfInput := by
  rintro rfl
  cases h

mutual

def primary (b : Bindings) (s : Scanner) : Result s.unread Binary64 :=
  withNext s fun t after ht =>
    Result.within (le_of_token ht) <|
      match t with
      | .symbol .opening =>
        (expression b after).andThen fun v s _ => (expect .closing s).andThen fun _ s _ => .ok v s
      | .number v => .ok v after
      | .name n => .check (b.lookup n) after
      | .symbol .minus => (primary b after).andThen fun v s _ => .ok v.neg s
      | .symbol .plus => primary b after
      | .keyword .root => rootCall b after
      | .keyword .power => powerCall b after
      | .endOfInput => .check (.error .inputEnded) after
      | t => .check (.error (.operandExpected t)) after
  termination_by 4 * s.unread
  decreasing_by all_goals
    have := lt_of_token ht (by simp)
    omega

/-- A square root behind its keyword. A root that does not exist is noticed before the closing
    bracket is read. -/
def rootCall (b : Bindings) (s : Scanner) : Result s.unread Binary64 :=
  (expect .opening s).andThen fun _ s _ =>
    (expression b s).andThen fun v s _ =>
      (Result.check v.squareRoot s).andThen fun w s _ =>
        (expect .closing s).andThen fun _ s _ => .ok w s
  termination_by 4 * s.unread + 3

/-- A power behind its keyword. -/
def powerCall (b : Bindings) (s : Scanner) : Result s.unread Binary64 :=
  (expect .opening s).andThen fun _ s _ =>
    (expression b s).andThen fun base s _ =>
      (expect .comma s).andThen fun _ s _ =>
        (exponent b s).andThen fun n s _ =>
          (expect .closing s).andThen fun _ s _ => .ok (base.power n) s
  termination_by 4 * s.unread + 3

def term (b : Bindings) (s : Scanner) : Result s.unread Binary64 :=
  (primary b s).andThen fun left s _ => factors b left s
  termination_by 4 * s.unread + 1

/-- What follows the first factor of a term, whose value so far is `left`. -/
def factors (b : Bindings) (left : Binary64) (s : Scanner) : Result s.unread Binary64 :=
  withNext s fun t after ht =>
    match _hop : t.productOperator? with
    | some op =>
      Result.within (le_of_token ht) <|
        (primary b after).andThen fun right s _ =>
          (Result.check (op.apply left right) s).andThen fun v s _ => factors b v s
    | none => (putBack t after ht).andThen fun _ s _ => .ok left s
  termination_by 4 * s.unread
  decreasing_by all_goals
    have := lt_of_token ht (ne_end_of_productOperator? _hop)
    omega

def expression (b : Bindings) (s : Scanner) : Result s.unread Binary64 :=
  (term b s).andThen fun left s _ => sums b left s
  termination_by 4 * s.unread + 2

/-- What follows the first term of an expression, whose value so far is `left`. -/
def sums (b : Bindings) (left : Binary64) (s : Scanner) : Result s.unread Binary64 :=
  withNext s fun t after ht =>
    match _hop : t.sumOperator? with
    | some op =>
      Result.within (le_of_token ht) <|
        (term b after).andThen fun right s _ => sums b (op.apply left right) s
    | none => (putBack t after ht).andThen fun _ s _ => .ok left s
  termination_by 4 * s.unread
  decreasing_by all_goals
    have := lt_of_token ht (ne_end_of_sumOperator? _hop)
    omega

end

def ofLevel : Calculation.Level → Bindings → (s : Scanner) → Result s.unread Binary64
  | .primary => primary
  | .term => term
  | .expression => expression

section

variable {α β : Type} {n : Nat} {s after : Scanner}

theorem withNext_of_token
    {go : (t : Token) → (after : Scanner) → heldSize (some t) + after.unread ≤ s.unread → Result s.unread α} {t : Token}
    (h : s.next = (.ok t, after)) : withNext s go = go t after (Scanner.unread_token_le h) := by
  unfold withNext
  split
  · rename_i hn
    cases h.symm.trans hn
    rfl
  · rename_i hn
    cases h.symm.trans hn

theorem withNext_of_error
    (go : (t : Token) → (after : Scanner) → heldSize (some t) + after.unread ≤ s.unread → Result s.unread α)
    {f : Failure} (h : s.next = (.error f, after)) :
    (withNext s go).answer = .error f ∧ (withNext s go).scanner = after := by
  unfold withNext
  split
  · rename_i hn
    cases h.symm.trans hn
  · rename_i hn
    cases h.symm.trans hn
    exact ⟨rfl, rfl⟩

/-! ## What is left to read -/

theorem unread_andThen_le (r : Result n α) (go : α → (s : Scanner) → s.unread ≤ n → Result s.unread β) :
    (r.andThen go).scanner.unread ≤ r.scanner.unread := by
  obtain ⟨f | v, s, h⟩ := r
  · exact Nat.le_refl _
  · exact (go v s h).unread_le

theorem unread_primary_le (b : Bindings) (s : Scanner) : (primary b s).scanner.unread ≤ s.next.2.unread := by
  rw [primary]
  rcases hn : s.next with ⟨f | t, after⟩
  · exact Nat.le_of_eq (congrArg Scanner.unread (withNext_of_error _ hn).2)
  · rw [withNext_of_token hn, Result.scanner_within]
    exact Result.unread_le _

theorem unread_expression_lt {b : Bindings} (h : Scanner.Took s.next.1) :
    (expression b s).scanner.unread < s.unread := by
  have hterm : (term b s).scanner.unread ≤ (primary b s).scanner.unread := by
    rw [term]
    exact unread_andThen_le _ _
  have hexpression : (expression b s).scanner.unread ≤ (term b s).scanner.unread := by
    rw [expression]
    exact unread_andThen_le _ _
  calc (expression b s).scanner.unread ≤ (primary b s).scanner.unread := Nat.le_trans hexpression hterm
    _ ≤ s.next.2.unread := unread_primary_le b s
    _ < s.unread := Scanner.unread_next_lt h

end

end Production

end Reckoner
