/-
  Reckoner.Proofs.Digits — seventeen digits tell a number from every other.

  A decimal that is rounded to seventeen digits is moved by less than a part in `2 ^ 54` of it. So
  it stays closer to the number it was made from than half the distance to the next one, and is read
  back as that number.

  - `value_roundTo_close`: how far rounding moves a decimal.
  - `toBinary64_of_close`: a decimal close to a number is read as it.
  - `toBinary64_of_value_roundTo`: so is whatever has the value of the rounded decimal.
-/

import Mathlib.Algebra.Order.Field.Power
import Reckoner.Decimal.Conversion
import Reckoner.Proofs.Nearest

namespace Reckoner

attribute [local instance (2000)] instPowNat

namespace Decimal

/-- The number, exactly. -/
def value (d : Decimal) : ℚ := d.coefficient * 10 ^ d.exponent

/-! ## Rounding to digits -/

theorem value_trimmed (c : Nat) (e : Int) : (trimmed c e).value = (⟨c, e⟩ : Decimal).value := by
  fun_induction trimmed c e with
  | case1 c e h ih =>
    have hc : (c : ℚ) = (c / 10 : Nat) * 10 := by
      exact_mod_cast (Nat.div_mul_cancel (Nat.dvd_of_mod_eq_zero h.2)).symm
    rw [ih]
    simp only [value]
    rw [hc, zpow_add_one₀ (by norm_num)]
    ring
  | case2 c e h => rfl

theorem value_trim (d : Decimal) : d.trim.value = d.value := by
  unfold trim
  split
  · rename_i h
    simp [value, h]
  · exact value_trimmed _ _

/-- A quotient that is large is moved by a small part of it. -/
theorem roundDiv_close {n d : Nat} (hd : 0 < d) (h : 10 ^ (16 : Nat) * d ≤ n) :
    2 ^ 54 * |(roundDiv n d * d : ℚ) - n| < n := by
  have hd' : (0 : ℚ) < d := by exact_mod_cast hd
  have hround := abs_sub_roundDiv_le n hd
  have hscale : |(roundDiv n d * d : ℚ) - n| = |(n : ℚ) / d - roundDiv n d| * d := by
    rw [← abs_of_pos hd', ← abs_mul, sub_mul, abs_of_pos hd', div_mul_cancel₀ _ (ne_of_gt hd'), abs_sub_comm]
  have hn : (10 : ℚ) ^ 16 * d ≤ n := by exact_mod_cast h
  rw [hscale]
  nlinarith

/-- Seventeen digits move a decimal by less than a part in `2 ^ 54`. -/
theorem value_roundTo_close {d : Decimal} (hd : d.coefficient ≠ 0) {count : Nat} (h : 17 ≤ count) :
    2 ^ 54 * |(d.roundTo count).value - d.value| < d.value := by
  have hc : (0 : ℚ) < d.coefficient := by exact_mod_cast Nat.pos_of_ne_zero hd
  have he : (0 : ℚ) < 10 ^ d.exponent := by positivity
  unfold roundTo
  rw [value_trim]
  generalize hcut : digitCount d.coefficient - count = cut
  simp only [value]
  rcases Nat.eq_zero_or_pos cut with rfl | hpos
  · have hround := roundDiv_mul_self d.coefficient (d := 1) Nat.one_pos
    rw [Nat.mul_one] at hround
    rw [Nat.pow_zero, hround, Nat.cast_zero, add_zero, sub_self, abs_zero, mul_zero]
    exact mul_pos hc he
  · have hlarge : 10 ^ (16 : Nat) * 10 ^ cut ≤ d.coefficient := by
      rw [← Nat.pow_add]
      rw [digitCount_eq] at hcut
      exact ten_pow_le_of_lt_length hd (by omega)
    have hclose := roundDiv_close (Nat.pow_pos (n := cut) (by decide : 0 < 10)) hlarge
    have hdiff (r : ℚ) : r * 10 ^ (d.exponent + (cut : Int)) - d.coefficient * 10 ^ d.exponent =
        (r * (10 ^ cut : Nat) - d.coefficient) * 10 ^ d.exponent := by
      rw [zpow_add₀ (by norm_num), zpow_natCast]
      push_cast
      ring
    rw [hdiff, abs_mul, abs_of_pos he, ← mul_assoc]
    exact mul_lt_mul_of_pos_right hclose he

/-! ## Reading -/

theorem two_pow_le_ten_pow (k : Nat) : 2 ^ (3 * k) ≤ 10 ^ k := by
  rw [Nat.pow_mul]
  exact Nat.pow_le_pow_left (by decide) k

/-- `10 ^ 400` is far past every number. -/
theorem two_mul_bound_le {k : Nat} (hk : 400 ≤ k) : 2 * Magnitude.bound ≤ 10 ^ k * unitsPerOne := by
  unfold Magnitude.bound unitsPerOne
  generalize ha : 2045 = a
  generalize hb : 1074 = b
  calc 2 * (2 ^ (53 : Nat) * 2 ^ a) = 2 ^ (54 + a) := by rw [Nat.pow_add]; omega
    _ ≤ 2 ^ (3 * k + b) := Nat.pow_le_pow_right (by decide) (by omega)
    _ = 2 ^ (3 * k) * 2 ^ b := Nat.pow_add _ _ _
    _ ≤ 10 ^ k * 2 ^ b := Nat.mul_le_mul_right _ (two_pow_le_ten_pow k)

/-- What is below `2 ^ -1199` is less than half a unit. -/
theorem two_mul_lt_ten_pow {c k : Nat} (h : c.log2 + 1200 ≤ 3 * k) : 2 * (c * unitsPerOne) < 10 ^ k := by
  unfold unitsPerOne
  generalize hb : 1074 = b
  calc 2 * (c * 2 ^ b) < 2 * (2 ^ (c.log2 + 1) * 2 ^ b) :=
        Nat.mul_lt_mul_of_pos_left (Nat.mul_lt_mul_of_pos_right Nat.lt_log2_self (Nat.two_pow_pos b)) Nat.two_pos
    _ = 2 ^ (c.log2 + 1 + b + 1) := by rw [← Nat.pow_add, ← Nat.pow_succ']
    _ ≤ 2 ^ (3 * k) := Nat.pow_le_pow_right (by decide) (by omega)
    _ ≤ 10 ^ k := two_pow_le_ten_pow k

/-- What is close to a number is less than twice as large, and more than half of it. -/
theorem bounds_of_close {x u : ℚ} (h : 2 ^ 54 * |x - u| < u) : x < 2 * u ∧ u < 2 * x := by
  obtain ⟨hl, hr⟩ := abs_le.mp (le_refl |x - u|)
  have habs := abs_nonneg (x - u)
  constructor <;> linarith

theorem lt_two_mul_of_cast {a b : Nat} (h : (a : ℚ) < 2 * b) : a < 2 * b := by exact_mod_cast h

/-- The number in units, as it is rounded. -/
theorem value_ofNat (c k : Nat) :
    (⟨c, .ofNat k⟩ : Decimal).value * unitsPerOne = ((c * 10 ^ k * unitsPerOne : Nat) : ℚ) := by
  simp only [value, Int.ofNat_eq_natCast, zpow_natCast]
  push_cast
  rfl

theorem value_negSucc (c n : Nat) :
    (⟨c, .negSucc n⟩ : Decimal).value * unitsPerOne = ((c * unitsPerOne : Nat) : ℚ) / ((10 ^ (n + 1) : Nat) : ℚ) := by
  simp only [value, zpow_negSucc]
  push_cast
  ring

/-- A decimal below twice a number is not past all of them. -/
theorem exponent_lt_of_value_lt {c k : Nat} (hc : c ≠ 0) {m : Magnitude}
    (h : ((c * 10 ^ k * unitsPerOne : Nat) : ℚ) < 2 * m.units) : k < 400 := by
  by_contra hk
  have hlt := lt_two_mul_of_cast h
  have hle := Nat.mul_le_mul_right (10 ^ k * unitsPerOne) (Nat.pos_of_ne_zero hc)
  rw [Nat.one_mul, ← Nat.mul_assoc] at hle
  have hbound := two_mul_bound_le (Nat.le_of_not_lt hk)
  have hunits := m.units_lt_bound
  omega

/-- A decimal above half of a unit is not one of those nearest to zero. -/
theorem exponent_lt_of_lt_value {c k : Nat} {m : Magnitude} (hm : 0 < m.units)
    (h : (m.units : ℚ) < 2 * (((c * unitsPerOne : Nat) : ℚ) / ((10 ^ k : Nat) : ℚ))) : 3 * k < c.log2 + 1200 := by
  by_contra hk
  have hten : (0 : ℚ) < ((10 ^ k : Nat) : ℚ) := Nat.cast_pos.mpr (Nat.pow_pos (by decide))
  rw [← mul_div_assoc, lt_div_iff₀ hten, ← Nat.cast_mul] at h
  have hlt := lt_two_mul_of_cast h
  have hle := Nat.mul_le_mul_right (10 ^ k) hm
  rw [Nat.one_mul] at hle
  exact absurd (Nat.lt_of_le_of_lt hle hlt) (Nat.not_lt_of_lt (two_mul_lt_ten_pow (Nat.le_of_not_lt hk)))

/-- A decimal close to a number is read as it. -/
theorem toBinary64_of_close {d : Decimal} {m : Magnitude} (h : 2 ^ 54 * |d.value * unitsPerOne - m.units| < m.units) :
    d.toBinary64 = .finite false m := by
  obtain ⟨hupper, hlower⟩ := bounds_of_close h
  have hm : 0 < m.units := by
    have hpos : (0 : ℚ) < m.units := lt_of_le_of_lt (by positivity) h
    exact_mod_cast hpos
  obtain ⟨c, e⟩ := d
  have hc : c ≠ 0 := by
    rintro rfl
    simp only [value, Nat.cast_zero, zero_mul, mul_zero] at hlower
    exact absurd hlower (not_lt.mpr (Nat.cast_nonneg _))
  unfold toBinary64
  rw [if_neg hc]
  -- neither of the two cases that are told by size
  cases e with
  | ofNat k =>
    rw [value_ofNat] at h hupper
    dsimp only
    rw [if_neg (Nat.not_le_of_lt (exponent_lt_of_value_lt hc hupper))]
    refine Binary64.nearest_of_close false _ Nat.one_pos ?_
    have hone (x : ℚ) : x / ((1 : Nat) : ℚ) = x := by rw [Nat.cast_one, div_one]
    rw [hone]
    exact h
  | negSucc n =>
    rw [value_negSucc] at h hlower
    dsimp only
    rw [if_neg (Nat.not_le_of_lt (exponent_lt_of_lt_value hm hlower))]
    exact Binary64.nearest_of_close false _ (Nat.pow_pos (by decide)) h

end Decimal

/-- The digits of a magnitude are exact. -/
theorem Magnitude.value_toDecimal (m : Magnitude) : m.toDecimal.value * unitsPerOne = m.units := by
  have hc : m.toDecimal.coefficient = m.units * 5 ^ (1074 : Nat) := by rw [toDecimal, unitDecimal]
  have he : m.toDecimal.exponent = -((1074 : Nat) : Int) := rfl
  unfold Decimal.value unitsPerOne
  rw [hc, he]
  generalize 1074 = k
  have hten : (10 : ℚ) ^ k = 5 ^ k * 2 ^ k := by rw [← mul_pow]; norm_num
  rw [zpow_neg, zpow_natCast, hten]
  push_cast
  field_simp

theorem Magnitude.coefficient_toDecimal_ne_zero {m : Magnitude} (hm : m ≠ .zero) : m.toDecimal.coefficient ≠ 0 := by
  have hu : m.units ≠ 0 := fun h => hm (Magnitude.units_eq_zero.mp h)
  refine Nat.mul_ne_zero hu ?_
  unfold unitDecimal
  generalize 1074 = k
  exact Nat.ne_of_gt (Nat.pow_pos (by decide))

/-- What has the value of a magnitude rounded to seventeen digits or more is read as that magnitude. -/
theorem Decimal.toBinary64_of_value_roundTo {m : Magnitude} (hm : m ≠ .zero) {count : Nat} (h : 17 ≤ count)
    {d : Decimal} (hd : d.value = (m.toDecimal.roundTo count).value) : d.toBinary64 = .finite false m := by
  have hone : (0 : ℚ) < unitsPerOne := Nat.cast_pos.mpr unitsPerOne_pos
  have hclose := mul_lt_mul_of_pos_right (value_roundTo_close (Magnitude.coefficient_toDecimal_ne_zero hm) h) hone
  refine toBinary64_of_close ?_
  rwa [mul_assoc, ← abs_of_pos hone, ← abs_mul, sub_mul, abs_of_pos hone, m.value_toDecimal, ← hd] at hclose

end Reckoner
