/-
  Reckoner.Decimal.General — general notation, in which results are printed.

  A number is rounded to `precision` significant digits (at least one), ties to even. If the
  exponent `x` of its first digit is at least -4 and below the precision it is written in
  positional form, otherwise in scientific form; zeros at the end of a fraction are dropped.
  The digits asked for behind a point are limited, before any are dropped.
-/

import Reckoner.Decimal.Shortest

namespace Reckoner

/-- The precision of a session that was given none. -/
def defaultPrecision : Nat := 6

/-- The most digits that may be asked for behind a point. -/
def maxPlaces : Nat := 65535

/-- Whether a decimal whose first digit has exponent `x` is written in positional form. -/
def isPositional (precision : Nat) (x : Int) : Bool := -4 ≤ x && x < precision

/-- None if more than `maxPlaces` digits are asked for behind the point. -/
def Magnitude.generalText? (precision : Nat) (m : Magnitude) : Option (List Char) :=
  if maxPlaces < precision - 1 then none
  else
    let d := m.toDecimal.roundTo precision
    if isPositional precision d.decade then
      if maxPlaces < (precision - 1 : Int) - d.decade then none else some d.positional
    else some d.scientific

/-- General notation; a precision of zero counts as one. -/
def Binary64.generalText? (precision : Nat) : Binary64 → Option String
  | nan => some "nan"
  | infinite negative => some (if negative then "-inf" else "inf")
  | finite negative m =>
    if m = .zero then some (if negative then "-0" else "0")
    else (m.generalText? (max precision 1)).map fun text => String.ofList (signText negative ++ text)

end Reckoner
