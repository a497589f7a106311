/-
  Reckoner.Binary64.Arithmetic — sums, products, quotients, remainders and square roots.

  Each result is the exact one, rounded once; NaN answers what has no value. The remainder
  needs no rounding: it is a whole number of units below the divisor.

  - `mul_finite`: a product is the nearest number to the product of the units.
  - `rootFloor_sq_le`, `lt_rootFloor_succ_sq`: the whole square root is the greatest one.
-/

import Reckoner.Binary64.Rounding

namespace Reckoner.Binary64

attribute [local instance (2000)] instPowNat

def neg : Binary64 → Binary64
  | nan => nan
  | infinite negative => .infinite (!negative)
  | finite negative m => .finite (!negative) m

theorem neg_neg (v : Binary64) : v.neg.neg = v := by cases v <;> simp [neg]

/-- A finite number as a signed number of units. -/
def signedUnits (negative : Bool) (m : Magnitude) : Int := if negative then -(m.units : Int) else m.units

/-- The sum of two opposite numbers is zero without a sign, unless both are zero with one. -/
def add : Binary64 → Binary64 → Binary64
  | nan, _ => nan
  | _, nan => nan
  | infinite a, infinite b => if a = b then .infinite a else nan
  | infinite a, finite _ _ => .infinite a
  | finite _ _, infinite b => .infinite b
  | finite a m, finite b n =>
    let sum := signedUnits a m + signedUnits b n
    if sum = 0 then .finite (a && b) .zero else nearest (sum < 0) sum.natAbs 1

def sub (v w : Binary64) : Binary64 := add v w.neg

/-- The product of `m` and `n`, with the powers of two of their units taken together. -/
def product (negative : Bool) (m n : Magnitude) : Binary64 :=
  let k := m.exponent + n.exponent
  if 1074 ≤ k then nearestScaled negative (m.significand * n.significand) (k - 1074)
  else nearest negative (m.significand * n.significand) (2 ^ (1074 - k))

def mul : Binary64 → Binary64 → Binary64
  | nan, _ => nan
  | _, nan => nan
  | infinite a, infinite b => .infinite (a != b)
  | infinite a, finite b n => if n = .zero then nan else .infinite (a != b)
  | finite a m, infinite b => if m = .zero then nan else .infinite (a != b)
  | finite a m, finite b n => product (a != b) m n

def div : Binary64 → Binary64 → Binary64
  | nan, _ => nan
  | _, nan => nan
  | infinite _, infinite _ => nan
  | infinite a, finite b _ => .infinite (a != b)
  | finite a _, infinite b => .finite (a != b) .zero
  | finite a m, finite b n =>
    if n = .zero then (if m = .zero then nan else .infinite (a != b))
    else nearest (a != b) (m.units * unitsPerOne) n.units

/-- What is left of `v` after taking away `w` as often as it fits; the sign is that of `v`. -/
def rem : Binary64 → Binary64 → Binary64
  | nan, _ => nan
  | _, nan => nan
  | infinite _, _ => nan
  | finite a m, infinite _ => .finite a m
  | finite a m, finite _ n => if n = .zero then nan else nearest a (m.units % n.units) 1

/-- The greatest whole number whose square is at most `n`. -/
def rootFloor (n : Nat) : Nat :=
  if n = 0 then 0
  else
    let r := 2 * rootFloor (n / 4)
    if (r + 1) * (r + 1) ≤ n then r + 1 else r

theorem rootFloor_bounds (n : Nat) :
    rootFloor n * rootFloor n ≤ n ∧ n < (rootFloor n + 1) * (rootFloor n + 1) := by
  induction n using Nat.strongRecOn with
  | ind n ih =>
    unfold rootFloor
    by_cases h : n = 0
    · simp [h]
    · obtain ⟨hl, hu⟩ := ih (n / 4) (by omega)
      have hr (s : Nat) : 2 * s * (2 * s) = 4 * (s * s) := by rw [Nat.mul_mul_mul_comm]
      have hl' : 2 * rootFloor (n / 4) * (2 * rootFloor (n / 4)) ≤ n := by rw [hr]; omega
      have hu' : n < (2 * rootFloor (n / 4) + 1 + 1) * (2 * rootFloor (n / 4) + 1 + 1) := by
        rw [show 2 * rootFloor (n / 4) + 1 + 1 = 2 * (rootFloor (n / 4) + 1) by omega, hr]
        omega
      simp only [h, if_false]
      split
      · exact ⟨by assumption, hu'⟩
      · exact ⟨hl', by omega⟩

theorem rootFloor_sq_le (n : Nat) : rootFloor n * rootFloor n ≤ n := (rootFloor_bounds n).1

theorem lt_rootFloor_succ_sq (n : Nat) : n < (rootFloor n + 1) * (rootFloor n + 1) := (rootFloor_bounds n).2

/-- The square root of a zero keeps its sign. A root that is not whole lies strictly between
    `r` and `r + 1`, where rounding does not tell it from `r + 1 / 2`. -/
def sqrt : Binary64 → Binary64
  | nan => nan
  | infinite negative => if negative then nan else .infinite false
  | finite negative m =>
    if m = .zero then .finite negative m
    else if negative then nan
    else
      let n := m.units * unitsPerOne
      let r := rootFloor n
      nearest false (if r * r = n then 2 * r else 2 * r + 1) 2

theorem mul_finite (a b : Bool) (m n : Magnitude) :
    mul (.finite a m) (.finite b n) = nearest (a != b) (m.units * n.units) unitsPerOne := by
  have hu : m.units * n.units = m.significand * n.significand * 2 ^ (m.exponent + n.exponent) := by
    simp only [Magnitude.units, Nat.pow_add, Nat.mul_mul_mul_comm]
  unfold mul product unitsPerOne
  dsimp only
  rw [hu]
  generalize m.exponent + n.exponent = k
  generalize 1074 = j
  split
  · rename_i h
    obtain ⟨i, rfl⟩ := Nat.exists_eq_add_of_le' h
    have := nearest_scale (a != b) (m.significand * n.significand * 2 ^ i) 1 (Nat.two_pow_pos j)
    rw [nearestScaled_eq, Nat.add_sub_cancel, Nat.pow_add, ← Nat.mul_assoc, ← this, Nat.one_mul]
  · rename_i h
    have := nearest_scale (a != b) (m.significand * n.significand) (2 ^ (j - k)) (Nat.two_pow_pos k)
    rw [← this, ← Nat.pow_add, Nat.sub_add_cancel (by omega)]

end Reckoner.Binary64
