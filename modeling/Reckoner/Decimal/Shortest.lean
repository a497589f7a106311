/-
  Reckoner.Decimal.Shortest — the fewest digits that read back as the same number.

  The grids of decimals are tried from the coarsest to the finest, which holds the number
  itself. On each grid only the two neighbours of the number can be nearest to it; the first
  grid with a neighbour that reads back gives the digits, and of two such neighbours the
  nearer, the upper one on a tie.
-/

import Reckoner.Decimal.Conversion

namespace Reckoner

attribute [local instance (2000)] instPowNat

/-- `d` is nearer to `m` than to any other number. -/
def Decimal.readsAs (d : Decimal) (m : Magnitude) : Bool := d.toBinary64 == .finite false m

namespace Magnitude

/-- The search from the grid `10 ^ (j - 1074)` down. -/
def shortestFrom (m : Magnitude) : Nat → Decimal
  | 0 => m.toDecimal
  | j + 1 =>
    let exact := m.toDecimal
    let grid := 10 ^ (j + 1)
    let exponent : Int := exact.exponent + (j + 1 : Nat)
    let lower : Decimal := ⟨exact.coefficient / grid, exponent⟩
    let upper : Decimal := ⟨exact.coefficient / grid + 1, exponent⟩
    if lower.readsAs m then
      if upper.readsAs m && grid ≤ 2 * (exact.coefficient % grid) then upper else lower
    else if upper.readsAs m then upper
    else shortestFrom m j

/-- The decimal with the fewest digits that reads back as the magnitude. -/
def shortest (m : Magnitude) : Decimal := (m.shortestFrom (Decimal.digitCount m.toDecimal.coefficient - 1)).trim

end Magnitude

namespace Binary64

def signText (negative : Bool) : List Char := if negative then ['-'] else []

/-- The shortest digits in positional form, however large or small the number. -/
def shortestText : Binary64 → String
  | nan => "NaN"
  | infinite negative => if negative then "-inf" else "inf"
  | finite negative m => String.ofList (signText negative ++ m.shortest.positional)

end Binary64

end Reckoner
