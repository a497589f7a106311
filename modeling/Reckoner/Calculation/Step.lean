/-
  Reckoner.Calculation.Step — a calculation and the token that comes next.

  What the productions have read at any moment is a state: the operations that wait for their right
  operand, those of the enclosing brackets, and what may come next. Products bind tighter than sums,
  signs tighter than products, and operations of one kind are done from left to right.

  One token takes a state to the next, or ends the calculation: with a value or a mistake,
  and with the token used up or left to what follows. Statements about an unfinished calculation are
  about its state.
-/

import Reckoner.Calculation.Production

namespace Reckoner.Calculation

/-- The operations that wait for a primary: a sum, then a product, then a change of sign. -/
structure Pending where
  sum : Option (Binary64 × SumOperator) := none
  product : Option (Binary64 × ProductOperator) := none
  negate : Bool := false
  deriving DecidableEq

inductive BuiltIn where
  | root
  | power
  deriving DecidableEq

/-- What an expression in brackets is for. -/
inductive Bracket where
  | group
  | argument (f : BuiltIn)
  deriving DecidableEq

/-- The brackets around what is read now, innermost first, each with what waits for it. -/
abbrev Enclosing := List (Bracket × Pending)

/-- What has been read, and with it what may come next. -/
inductive State where
  /-- A primary. -/
  | operand (p : Pending) (outer : Enclosing)
  /-- The bracket that opens a function's arguments. -/
  | opening (f : BuiltIn) (p : Pending) (outer : Enclosing)
  /-- An operator, or the end of the expression. -/
  | operator (sum : Option (Binary64 × SumOperator)) (v : Binary64) (outer : Enclosing)
  /-- The exponent of a power. -/
  | exponent (base : Binary64) (p : Pending) (outer : Enclosing)
  /-- The bracket behind the exponent. -/
  | closing (base : Binary64) (n : Nat) (p : Pending) (outer : Enclosing)
  deriving DecidableEq

def State.start : State := .operand {} []

inductive Step where
  | more (s : State)
  /-- The calculation is over. The token that ended it was used up, or it is `left` to what
      follows. -/
  | stop (result : Except Mistake Binary64) (left : Bool)

def Step.fail (m : Mistake) : Step := .stop (.error m) false

/-- Goes on if the token is the one that is wanted. -/
@[macro_inline]
def expect (wanted : Symbol) (found : Token) (next : Step) : Step :=
  if found = .symbol wanted then next
  else if found = .endOfInput then .fail .inputEnded
  else .fail (.expected wanted found)

/-- A primary of value `v` is read: its sign and the product before it are worked out. -/
def complete (level : Level) (p : Pending) (outer : Enclosing) (v : Binary64) : Step :=
  let signed := if p.negate then v.neg else v
  let factor : Except Mistake Binary64 :=
    match p.product with
    | some (left, op) => op.apply left signed
    | none => .ok signed
  match factor with
  | .error m => .fail m
  | .ok w => if level = .primary ∧ outer = [] then .stop (.ok w) false else .more (.operator p.sum w outer)

def operandStep (b : Bindings) (level : Level) (p : Pending) (outer : Enclosing) : Token → Step
  | .number v => complete level p outer v
  | .name n =>
    match b.lookup n with
    | .ok v => complete level p outer v
    | .error m => .fail m
  | .symbol .minus => .more (.operand { p with negate := !p.negate } outer)
  | .symbol .plus => .more (.operand p outer)
  | .symbol .opening => .more (.operand {} ((.group, p) :: outer))
  | .keyword .root => .more (.opening .root p outer)
  | .keyword .power => .more (.opening .power p outer)
  | .endOfInput => .fail .inputEnded
  | t => .fail (.operandExpected t)

/-- The end of an expression of value `v`, at the token behind it. -/
def enclose (level : Level) (v : Binary64) (t : Token) : Enclosing → Step
  | [] => .stop (.ok v) true
  | (.group, p) :: outer => expect .closing t (complete level p outer v)
  | (.argument .root, p) :: outer =>
    match v.squareRoot with
    | .error m => .stop (.error m) true
    | .ok w => expect .closing t (complete level p outer w)
  | (.argument .power, p) :: outer =>
    expect .comma t (.more (.exponent v p outer))

def operatorStep (level : Level) (sum : Option (Binary64 × SumOperator)) (v : Binary64) (outer : Enclosing)
    (t : Token) : Step :=
  match t.productOperator? with
  | some op => .more (.operand { sum, product := some (v, op) } outer)
  | none =>
    if level = .term ∧ outer = [] then .stop (.ok v) true
    else
      let total :=
        match sum with
        | some (left, op) => op.apply left v
        | none => v
      match t.sumOperator? with
      | some op => .more (.operand { sum := some (total, op) } outer)
      | none => enclose level total t outer

def exponentStep (b : Bindings) (base : Binary64) (p : Pending) (outer : Enclosing) (t : Token) : Step :=
  match (Production.exponentValue b t).bind Binary64.toExponent with
  | .error m => .fail m
  | .ok n => .more (.closing base n p outer)

/-- What a token makes of a state, under the variables `b`. -/
def step (b : Bindings) (level : Level) (s : State) (t : Token) : Step :=
  match s with
  | .operand p outer => operandStep b level p outer t
  | .opening f p outer =>
    expect .opening t (.more (.operand {} ((.argument f, p) :: outer)))
  | .operator sum v outer => operatorStep level sum v outer t
  | .exponent base p outer => exponentStep b base p outer t
  | .closing base n p outer =>
    expect .closing t (complete level p outer (base.power n))

/-! ## The end of the input ends a calculation -/

theorem expect_endOfInput (wanted : Symbol) (next : Step) :
    expect wanted .endOfInput next = .fail .inputEnded := rfl

theorem enclose_endOfInput (level : Level) (v : Binary64) (outer : Enclosing) (s : State) :
    enclose level v .endOfInput outer ≠ .more s := by
  unfold enclose
  split
  · exact nofun
  · exact nofun
  · split <;> exact nofun
  · exact nofun

theorem step_endOfInput (b : Bindings) (level : Level) (s next : State) :
    step b level s .endOfInput ≠ .more next := by
  cases s with
  | operand p outer => exact nofun
  | opening f p outer => exact nofun
  | operator sum v outer =>
    by_cases h : level = .term ∧ outer = []
    · simp [step, operatorStep, Token.productOperator?, Token.symbol?, h]
    · simp only [step, operatorStep, Token.productOperator?, Token.sumOperator?, Token.symbol?, Option.bind_none,
        if_neg h]
      exact enclose_endOfInput _ _ _ _
  | exponent base p outer => exact nofun
  | closing base n p outer => exact nofun

end Reckoner.Calculation
