/-
  Reckoner.Decimal.Conversion — decimals as binary64 numbers and back.

  A decimal becomes the nearest number. A finite number is a decimal as it stands, since a
  unit, `2 ^ -1074`, is `5 ^ 1074 * 10 ^ -1074`.
-/

import Reckoner.Binary64.Arithmetic
import Reckoner.Decimal.Basic

namespace Reckoner

attribute [local instance (2000)] instPowNat

/-- The nearest number, ties to even. Two cases are told by size alone and spare the long
    arithmetic: `10 ^ 400` is past every number, and a quotient below `2 ^ -1199` is nearest
    to zero. -/
def Decimal.toBinary64 (d : Decimal) : Binary64 :=
  if d.coefficient = 0 then .zero
  else
    match d.exponent with
    | .ofNat k =>
      if 400 ≤ k then .infinite false else .nearest false (d.coefficient * 10 ^ k * unitsPerOne) 1
    | .negSucc n =>
      let k := n + 1
      if d.coefficient.log2 + 1200 ≤ 3 * k then .zero
      else .nearest false (d.coefficient * unitsPerOne) (10 ^ k)

/-- A unit in units of `10 ^ -1074`. -/
def unitDecimal : Nat := 5 ^ (1074 : Nat)

/-- The magnitude itself, written out in full. -/
def Magnitude.toDecimal (m : Magnitude) : Decimal := ⟨m.units * unitDecimal, -1074⟩

end Reckoner
