/-
  Reckoner.Proofs.Grammar — statements as derivation trees.

      statement  := ("let" | "#") name "=" expression | expression
      expression := term (("+" | "-") term)*
      term       := primary (("*" | "/" | "%") primary)*
      primary    := number | name | "(" expression ")" | ("+" | "-") primary
                  | "sqrt" "(" expression ")" | "pow" "(" expression "," (number | name) ")"

  A tree has a yield, the tokens it derives, and a value under the variables declared so far.
  Operators of one kind are applied from left to right, each as soon as its right operand has
  a value, so that of several mistakes the leftmost counts.
-/

import Reckoner.Bindings
import Reckoner.Operation

namespace Reckoner

def SumOperator.symbol : SumOperator → Symbol
  | plus => .plus
  | minus => .minus

def ProductOperator.symbol : ProductOperator → Symbol
  | times => .star
  | divided => .slash
  | modulo => .percent

namespace Grammar

inductive Exponent where
  | number (v : Binary64)
  | name (n : String)

mutual

inductive Primary where
  | number (v : Binary64)
  | name (n : String)
  | group (e : Expression)
  | plus (p : Primary)
  | minus (p : Primary)
  | root (e : Expression)
  | power (base : Expression) (x : Exponent)

inductive Term where
  | of (first : Primary) (rest : Products)

/-- What may follow the first factor of a term. -/
inductive Products where
  | none
  | more (op : ProductOperator) (p : Primary) (rest : Products)

inductive Expression where
  | of (first : Term) (rest : Sums)

/-- What may follow the first term of an expression. -/
inductive Sums where
  | none
  | more (op : SumOperator) (t : Term) (rest : Sums)

end

inductive Statement where
  | declaration (name : String) (e : Expression)
  | expression (e : Expression)

/-- The signs with which an expression or a term goes on. -/
def operators : List Token :=
  [.symbol .plus, .symbol .minus, .symbol .star, .symbol .slash, .symbol .percent]

/-! ## Yields -/

def Exponent.yield : Exponent → List Token
  | number v => [.number v]
  | name n => [.name n]

mutual

def Primary.yield : Primary → List Token
  | .number v => [.number v]
  | .name n => [.name n]
  | .group e => .symbol .opening :: (e.yield ++ [.symbol .closing])
  | .plus p => .symbol .plus :: p.yield
  | .minus p => .symbol .minus :: p.yield
  | .root e => .keyword .root :: .symbol .opening :: (e.yield ++ [.symbol .closing])
  | .power base x =>
    .keyword .power :: .symbol .opening :: (base.yield ++ .symbol .comma :: (x.yield ++ [.symbol .closing]))

def Term.yield : Term → List Token
  | .of first rest => first.yield ++ rest.yield

def Products.yield : Products → List Token
  | .none => []
  | .more op p rest => .symbol op.symbol :: (p.yield ++ rest.yield)

def Expression.yield : Expression → List Token
  | .of first rest => first.yield ++ rest.yield

def Sums.yield : Sums → List Token
  | .none => []
  | .more op t rest => .symbol op.symbol :: (t.yield ++ rest.yield)

end

def Statement.yield : Statement → List Token
  | declaration name e => .keyword .declare :: .name name :: .symbol .equals :: e.yield
  | expression e => e.yield

/-- An expression begins with a token, and neither with that of a declaration nor with the end. -/
theorem Primary.first (p : Primary) : ∃ t ts, p.yield = t :: ts ∧ t ≠ .keyword .declare ∧ t ≠ .endOfInput := by
  cases p <;> exact ⟨_, _, rfl, nofun, nofun⟩

theorem Expression.first (e : Expression) :
    ∃ t ts, e.yield = t :: ts ∧ t ≠ .keyword .declare ∧ t ≠ .endOfInput := by
  obtain ⟨⟨p, ps⟩, ss⟩ := e
  obtain ⟨t, ts, h, ht⟩ := p.first
  refine ⟨t, ts ++ ps.yield ++ ss.yield, ?_, ht⟩
  rw [Expression.yield, Term.yield, h]
  rfl

/-! ## Values -/

section

variable (b : Bindings)

def Exponent.value : Exponent → Except Mistake Nat
  | number v => v.toExponent
  | name n => do (← b.lookup n).toExponent

mutual

def Primary.value : Primary → Except Mistake Binary64
  | .number v => .ok v
  | .name n => b.lookup n
  | .group e => e.value
  | .plus p => p.value
  | .minus p => do return (← p.value).neg
  | .root e => do (← e.value).squareRoot
  | .power base x => do
    let v ← base.value
    return v.power (← x.value b)

def Term.value : Term → Except Mistake Binary64
  | .of first rest => do rest.value (← first.value)

/-- The value of a term whose factors so far have the value `left`. -/
def Products.value (left : Binary64) : Products → Except Mistake Binary64
  | .none => .ok left
  | .more op p rest => do
    let right ← p.value
    rest.value (← op.apply left right)

def Expression.value : Expression → Except Mistake Binary64
  | .of first rest => do rest.value (← first.value)

/-- The value of an expression whose terms so far have the value `left`. -/
def Sums.value (left : Binary64) : Sums → Except Mistake Binary64
  | .none => .ok left
  | .more op t rest => do
    let right ← t.value
    rest.value (op.apply left right)

end

end

def Statement.value (b : Bindings) : Statement → Except Mistake Binary64
  | declaration _ e => e.value b
  | expression e => e.value b

/-- A declaration asks for a name that is not bound yet. -/
def Statement.Fresh (b : Bindings) : Statement → Prop
  | declaration name _ => b.isBound name = false
  | expression _ => True

/-- The variables behind a statement of value `v`. -/
def Statement.after (b : Bindings) (v : Binary64) : Statement → Bindings
  | declaration name _ => ⟨b.toList ++ [⟨name, v⟩]⟩
  | expression _ => b

/-! ## Trees that grow at their end -/

def Products.snoc (op : ProductOperator) (p : Primary) : Products → Products
  | .none => .more op p .none
  | .more op' p' rest => .more op' p' (rest.snoc op p)

def Sums.snoc (op : SumOperator) (t : Term) : Sums → Sums
  | .none => .more op t .none
  | .more op' t' rest => .more op' t' (rest.snoc op t)

theorem Products.yield_snoc (op : ProductOperator) (p : Primary) :
    (ps : Products) → (ps.snoc op p).yield = ps.yield ++ .symbol op.symbol :: p.yield
  | .none => by simp [snoc, yield]
  | .more op' p' rest => by simp [snoc, yield, yield_snoc op p rest]

theorem Sums.yield_snoc (op : SumOperator) (t : Term) :
    (ss : Sums) → (ss.snoc op t).yield = ss.yield ++ .symbol op.symbol :: t.yield
  | .none => by simp [snoc, yield]
  | .more op' t' rest => by simp [snoc, yield, yield_snoc op t rest]

/-- The operator that was added is applied last. -/
theorem Products.value_snoc (b : Bindings) (op : ProductOperator) (p : Primary) : (ps : Products) → (left : Binary64) →
    (ps.snoc op p).value b left = do op.apply (← ps.value b left) (← p.value b)
  | .none, left => by
    simp only [snoc, value]
    exact congrArg (p.value b >>= ·) (funext fun right => bind_pure _)
  | .more op' p' rest, left => by simp [snoc, value, value_snoc b op p rest]

theorem Sums.value_snoc (b : Bindings) (op : SumOperator) (t : Term) : (ss : Sums) → (left : Binary64) →
    (ss.snoc op t).value b left = do return op.apply (← ss.value b left) (← t.value b)
  | .none, left => rfl
  | .more op' t' rest, left => by simp [snoc, value, value_snoc b op t rest]

def Term.snoc (op : ProductOperator) (p : Primary) : Term → Term
  | .of first rest => .of first (rest.snoc op p)

def Expression.snoc (op : SumOperator) (t : Term) : Expression → Expression
  | .of first rest => .of first (rest.snoc op t)

theorem Term.yield_snoc (op : ProductOperator) (p : Primary) (t : Term) :
    (t.snoc op p).yield = t.yield ++ .symbol op.symbol :: p.yield := by
  obtain ⟨first, rest⟩ := t
  simp only [snoc, yield, Products.yield_snoc, List.append_assoc]

theorem Expression.yield_snoc (op : SumOperator) (t : Term) (e : Expression) :
    (e.snoc op t).yield = e.yield ++ .symbol op.symbol :: t.yield := by
  obtain ⟨first, rest⟩ := e
  simp only [snoc, yield, Sums.yield_snoc, List.append_assoc]

theorem Term.value_snoc (b : Bindings) (op : ProductOperator) (p : Primary) (t : Term) :
    (t.snoc op p).value b = (do op.apply (← t.value b) (← p.value b)) := by
  obtain ⟨first, rest⟩ := t
  simp only [snoc, value, Products.value_snoc, bind_assoc]

theorem Expression.value_snoc (b : Bindings) (op : SumOperator) (t : Term) (e : Expression) :
    (e.snoc op t).value b = (do return op.apply (← e.value b) (← t.value b)) := by
  obtain ⟨first, rest⟩ := e
  simp only [snoc, value, Sums.value_snoc, bind_assoc]

end Grammar

end Reckoner
