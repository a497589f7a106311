/-
  Reckoner.Operation — the operations a statement can ask for.

  Sums and products of any two numbers have a value. Division, remainder, square root and
  power refuse some operands, each with a mistake of its own.
-/

import Reckoner.Binary64.Power
import Reckoner.Failure

namespace Reckoner

attribute [local instance (2000)] instPowNat

/-- The greatest exponent a power may have. -/
def maxExponent : Nat := 2 ^ (20 : Nat)

namespace Binary64

def divide (v w : Binary64) : Except Mistake Binary64 :=
  if w.isZero then .error .divisionByZero else .ok (v.div w)

def remainder (v w : Binary64) : Except Mistake Binary64 :=
  if w.isZero then .error .divisionByZero else .ok (v.rem w)

def squareRoot (v : Binary64) : Except Mistake Binary64 :=
  if v.isBelowZero then .error (.negativeRoot v) else .ok v.sqrt

/-- The least exponent that is reported as it is; any below it is reported as this one. -/
def leastReported : Int := -2 ^ (63 : Nat)

/-- The number as an exponent: whole, not below zero and at most `maxExponent`. An infinite
    number is too large, whatever its sign. -/
def toExponent (v : Binary64) : Except Mistake Nat :=
  match v with
  | nan => .error (.exponentNotWhole v)
  | infinite _ => .error (.exponentTooLarge v)
  | finite negative m =>
    let n := m.units / unitsPerOne
    if m.units % unitsPerOne ≠ 0 then .error (.exponentNotWhole v)
    else if negative && n ≠ 0 then .error (.exponentNegative (max (-(n : Int)) leastReported))
    else if maxExponent < n then .error (.exponentTooLarge v)
    else .ok n

end Binary64

inductive SumOperator where
  | plus
  | minus
  deriving DecidableEq

def SumOperator.apply (v w : Binary64) : SumOperator → Binary64
  | plus => v.add w
  | minus => v.sub w

inductive ProductOperator where
  | times
  | divided
  | modulo
  deriving DecidableEq

def ProductOperator.apply (v w : Binary64) : ProductOperator → Except Mistake Binary64
  | times => .ok (v.mul w)
  | divided => v.divide w
  | modulo => v.remainder w

/-- A symbol between two terms. -/
def Symbol.sumOperator? : Symbol → Option SumOperator
  | plus => some .plus
  | minus => some .minus
  | _ => none

/-- A symbol between two factors. -/
def Symbol.productOperator? : Symbol → Option ProductOperator
  | star => some .times
  | slash => some .divided
  | percent => some .modulo
  | _ => none

def Token.sumOperator? (t : Token) : Option SumOperator := t.symbol?.bind Symbol.sumOperator?

def Token.productOperator? (t : Token) : Option ProductOperator := t.symbol?.bind Symbol.productOperator?

end Reckoner
