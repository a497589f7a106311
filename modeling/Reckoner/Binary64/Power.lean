/-
  Reckoner.Binary64.Power — whole powers by repeated multiplication.

  A power is multiplied out from the left, each product rounded. Multiplication stops once
  the product is a zero, infinite or NaN.
-/

import Reckoner.Binary64.Arithmetic

namespace Reckoner.Binary64

/-- No further multiplication is worth making. -/
def isSettled (v : Binary64) : Bool := v.isZero || !v.isFinite

/-- `product` times `base`, `count` times over. -/
def multiply (base : Binary64) : Binary64 → Nat → Binary64
  | product, 0 => product
  | product, count + 1 => if product.isSettled then product else multiply base (product.mul base) count

/-- The zeroth power of zero is zero; that of any other number, NaN included, is one. -/
def power (base : Binary64) : Nat → Binary64
  | 0 => if base.isZero then zero else one
  | n + 1 => multiply base base n

end Reckoner.Binary64
