/-
  Reckoner.Proofs.Significant — rounding to significant digits.

  A decimal is rounded by the digits of its coefficient. Here this is told by values alone: the
  first digit of a rational stands for a power of ten, its decade, and rounding to so many digits
  moves it to the nearest multiple of the power of ten for which the last of them stands, a tie to
  an even multiple. A rational that is rounded up to the next decade is rounded to the same one
  if the digits are counted from there.

  - `roundedTo_roundTo`: what `roundTo` does.
  - `RoundedTo.unique`, `HasDecade.unique`: there is one such number, and it has one decade.
  - `RoundedTo.halfEven`: the digits may as well be counted from the decade of the outcome.
-/

import Mathlib.Algebra.Order.Field.Power
import Mathlib.Tactic.NormNum
import Reckoner.Proofs.Digits

namespace Reckoner

attribute [local instance (2000)] instPowNat

/-! ## Multiples of a unit -/

/-- `y` is the multiple of `unit` nearest to `x`, of two equally near ones the even one. -/
def HalfEven (x unit y : ℚ) : Prop :=
  ∃ q : Nat, y = q * unit ∧ 2 * |x / unit - q| ≤ 1 ∧ (2 * |x / unit - q| = 1 → q % 2 = 0)

theorem HalfEven.unique {x unit y z : ℚ} (h : HalfEven x unit y) (h' : HalfEven x unit z) : y = z := by
  obtain ⟨q, rfl, hq, heven⟩ := h
  obtain ⟨r, rfl, hr, heven'⟩ := h'
  by_cases hne : q = r
  · rw [hne]
  · exfalso
    -- two whole numbers with nothing but a tie between them are neighbours, and not both even
    have hone : (1 : ℚ) ≤ |(q : ℚ) - r| := by
      have hz : (1 : Int) ≤ |(q : Int) - r| := Int.one_le_abs (by omega)
      exact_mod_cast hz
    have htri : |(q : ℚ) - r| ≤ |x / unit - q| + |x / unit - r| := by
      rw [abs_sub_comm (x / unit) q]
      exact abs_sub_le _ _ _
    have hq2 := heven (by linarith)
    have hr2 := heven' (by linarith)
    have hdist : |(q : ℚ) - r| = 1 := by linarith
    have hz : |(q : Int) - r| = 1 := by exact_mod_cast hdist
    rcases (abs_eq (by decide)).mp hz with he | he <;> omega

theorem HalfEven.multiple (q : Nat) {unit : ℚ} (h : 0 < unit) : HalfEven (q * unit) unit (q * unit) := by
  have hdiv : (q : ℚ) * unit / unit = q := mul_div_cancel_right₀ _ (ne_of_gt h)
  refine ⟨q, rfl, ?_, ?_⟩
  · rw [hdiv, sub_self, abs_zero, mul_zero]
    exact zero_le_one
  · intro htie
    rw [hdiv, sub_self, abs_zero, mul_zero] at htie
    exact absurd htie zero_ne_one

theorem HalfEven.scale {x unit y k : ℚ} (h : HalfEven x unit y) (hk : 0 < k) :
    HalfEven (x * k) (unit * k) (y * k) := by
  obtain ⟨q, rfl, hq, heven⟩ := h
  refine ⟨q, mul_assoc _ _ _, ?_, ?_⟩
  · rwa [mul_div_mul_right _ _ (ne_of_gt hk)]
  · rwa [mul_div_mul_right _ _ (ne_of_gt hk)]

/-- A whole number in between is not passed. -/
theorem le_of_half {v : ℚ} {q low : Nat} (hq : 2 * |v - q| ≤ 1) (h : (low : ℚ) ≤ v) : low ≤ q := by
  by_contra hlt
  have hsucc : ((q + 1 : Nat) : ℚ) ≤ low := by exact_mod_cast Nat.lt_of_not_le hlt
  push_cast at hsucc
  have hdist := le_abs_self (v - q)
  linarith

theorem ge_of_half {v : ℚ} {q high : Nat} (hq : 2 * |v - q| ≤ 1) (h : v ≤ high) : q ≤ high := by
  by_contra hlt
  have hsucc : ((high + 1 : Nat) : ℚ) ≤ q := by exact_mod_cast Nat.lt_of_not_le hlt
  push_cast at hsucc
  have hdist := neg_abs_le (v - q)
  linarith

theorem abs_div_ten_sub (v k : ℚ) : |v / 10 - k| = |v - k * 10| / 10 := by
  have hdiv : v / 10 - k = (v - k * 10) / 10 := by ring
  rw [hdiv, abs_div, abs_of_pos (by norm_num : (0 : ℚ) < 10)]

/-- A quotient as it is rounded. -/
theorem halfEven_roundDiv (n : Nat) {d : Nat} (hd : 0 < d) : HalfEven ((n : ℚ) / d) 1 (roundDiv n d) := by
  refine ⟨roundDiv n d, (mul_one _).symm, ?_, ?_⟩
  · rw [div_one]
    exact abs_sub_roundDiv_le n hd
  · intro htie
    rw [div_one] at htie
    have hd' : (0 : ℚ) < d := by exact_mod_cast hd
    have hscale : 2 * |(n : ℚ) - roundDiv n d * d| = d := by
      have hdiv : (n : ℚ) / d - roundDiv n d = ((n : ℚ) - roundDiv n d * d) / d := by field_simp
      rw [hdiv, abs_div, abs_of_pos hd', ← mul_div_assoc, div_eq_one_iff_eq (ne_of_gt hd')] at htie
      exact htie
    have hnat : 2 * |(n : Int) - roundDiv n d * d| = d := by exact_mod_cast hscale
    have hdivmod : d * (n / d) + n % d = n := Nat.div_add_mod n d
    have hmod := Nat.mod_lt n hd
    unfold roundDiv at hnat ⊢
    dsimp only at hnat ⊢
    split at hnat
    · rename_i hdown
      rw [if_pos hdown]
      have hrest : (n : Int) - (n / d : Nat) * d = (n % d : Nat) := by
        rw [mul_comm]
        omega
      rw [hrest, abs_of_nonneg (by omega)] at hnat
      rcases hdown with hlt | ⟨-, heven⟩
      · omega
      · exact heven
    · rename_i hup
      rw [if_neg hup]
      have hrest : (n : Int) - (n / d + 1 : Nat) * d = (n % d : Nat) - d := by
        rw [mul_comm, Nat.cast_add_one, mul_add, mul_one]
        omega
      rw [hrest, abs_of_nonpos (by omega)] at hnat
      have htie : 2 * (n % d) = d := by omega
      omega

/-! ## Decades -/

theorem ten_zpow_add (z : Int) (k : Nat) : (10 : ℚ) ^ (z + k) = ((10 ^ k : Nat) : ℚ) * 10 ^ z := by
  rw [zpow_add₀ (by norm_num), zpow_natCast, Nat.cast_pow, Nat.cast_ofNat, mul_comm]

/-- The first digit of `x` stands for `10 ^ z`. -/
def HasDecade (x : ℚ) (z : Int) : Prop := 10 ^ z ≤ x ∧ x < 10 ^ (z + 1)

theorem HasDecade.pos {x : ℚ} {z : Int} (h : HasDecade x z) : 0 < x :=
  lt_of_lt_of_le (zpow_pos (by norm_num) z) h.1

theorem HasDecade.unique {x : ℚ} {z w : Int} (h : HasDecade x z) (h' : HasDecade x w) : z = w := by
  have hlt : (10 : ℚ) ^ z < 10 ^ (w + 1) := lt_of_le_of_lt h.1 h'.2
  have hlt' : (10 : ℚ) ^ w < 10 ^ (z + 1) := lt_of_le_of_lt h'.1 h.2
  rw [zpow_lt_zpow_iff_right₀ (by norm_num)] at hlt hlt'
  omega

/-- `y` is `x` rounded to `count` significant digits, half to even. -/
def RoundedTo (count : Nat) (x y : ℚ) : Prop := ∃ z, HasDecade x z ∧ HalfEven x (10 ^ (z + 1 - count)) y

theorem RoundedTo.unique {count : Nat} {x y y' : ℚ} (h : RoundedTo count x y) (h' : RoundedTo count x y') :
    y = y' := by
  obtain ⟨z, hz, hy⟩ := h
  obtain ⟨z', hz', hy'⟩ := h'
  obtain rfl := hz.unique hz'
  exact hy.unique hy'

section

variable {count : Nat} (hcount : 0 < count)
include hcount

/-- The last digit of `count` stands for so much less than the first. -/
theorem pow_mul_unit (z : Int) :
    ((10 ^ (count - 1) : Nat) : ℚ) * 10 ^ (z + 1 - count) = 10 ^ z ∧
      ((10 ^ count : Nat) : ℚ) * 10 ^ (z + 1 - count) = 10 ^ (z + 1) := by
  rw [← ten_zpow_add, ← ten_zpow_add]
  constructor
  · congr 1
    omega
  · congr 1
    omega

/-- A number is rounded to as many digits as are asked for, or to the first number with one more. -/
theorem bounds_of_halfEven {x : ℚ} {z : Int} (hz : HasDecade x z) {q : Nat}
    (hq : 2 * |x / 10 ^ (z + 1 - count) - q| ≤ 1) : 10 ^ (count - 1) ≤ q ∧ q ≤ 10 ^ count := by
  have hunit : (0 : ℚ) < 10 ^ (z + 1 - (count : Int)) := zpow_pos (by norm_num) _
  obtain ⟨hfirst, hnext⟩ := pow_mul_unit hcount z
  constructor
  · refine le_of_half hq ?_
    rw [le_div_iff₀ hunit, hfirst]
    exact hz.1
  · refine ge_of_half hq ?_
    rw [div_le_iff₀ hunit, hnext]
    exact le_of_lt hz.2

theorem RoundedTo.pos {x y : ℚ} (h : RoundedTo count x y) : 0 < y := by
  obtain ⟨z, hz, q, rfl, hq, -⟩ := h
  have hpos : 0 < q := Nat.lt_of_lt_of_le (Nat.pow_pos (by decide)) (bounds_of_halfEven hcount hz hq).1
  exact mul_pos (Nat.cast_pos.mpr hpos) (zpow_pos (by norm_num) _)

/-- The digits may as well be counted from the decade of the outcome: a number that is rounded up to
    the next one is far closer to it than half of the greater unit. -/
theorem RoundedTo.halfEven {x y : ℚ} (h : RoundedTo count x y) {w : Int} (hw : HasDecade y w) :
    HalfEven x (10 ^ (w + 1 - count)) y := by
  obtain ⟨z, hz, q, rfl, hq, heven⟩ := h
  obtain ⟨hlow, hhigh⟩ := bounds_of_halfEven hcount hz hq
  obtain ⟨hfirst, hnext⟩ := pow_mul_unit hcount z
  have hunit : (0 : ℚ) < 10 ^ (z + 1 - (count : Int)) := zpow_pos (by norm_num) _
  rcases Nat.lt_or_eq_of_le hhigh with hlt | rfl
  · -- the decade is kept
    have hsame : HasDecade ((q : ℚ) * 10 ^ (z + 1 - (count : Int))) z := by
      constructor
      · rw [← hfirst]
        exact mul_le_mul_of_nonneg_right (Nat.cast_le.mpr hlow) (le_of_lt hunit)
      · rw [← hnext]
        exact mul_lt_mul_of_pos_right (Nat.cast_lt.mpr hlt) hunit
    obtain rfl := hw.unique hsame
    exact ⟨q, rfl, hq, heven⟩
  · -- the outcome is the first number of the next decade
    rw [hnext] at hw ⊢
    obtain rfl : w = z + 1 := hw.unique ⟨le_refl _, zpow_lt_zpow_right₀ (by norm_num) (lt_add_one _)⟩
    have htenth : (10 : ℚ) ^ (z + 1 + 1 - (count : Int)) = 10 ^ (z + 1 - (count : Int)) * 10 := by
      rw [← zpow_add_one₀ (by norm_num)]
      congr 1
      omega
    have hpow : ((10 ^ count : Nat) : ℚ) = ((10 ^ (count - 1) : Nat) : ℚ) * 10 := by
      rw [← Nat.cast_ofNat (R := ℚ), ← Nat.cast_mul, ← Nat.pow_succ, Nat.succ_eq_add_one, Nat.sub_add_cancel hcount]
    have hdist : |x / 10 ^ (z + 1 + 1 - (count : Int)) - (10 ^ (count - 1) : Nat)| =
        |x / 10 ^ (z + 1 - (count : Int)) - (10 ^ count : Nat)| / 10 := by
      rw [htenth, ← div_div, hpow]
      exact abs_div_ten_sub _ _
    refine ⟨10 ^ (count - 1), (pow_mul_unit hcount (z + 1)).1.symm, ?_, ?_⟩
    · rw [hdist]
      linarith
    · intro htie
      rw [hdist] at htie
      linarith

end

/-! ## Decimals -/

namespace Decimal

theorem coefficient_ne_zero_of_value_pos {d : Decimal} (h : 0 < d.value) : d.coefficient ≠ 0 := by
  intro hc
  rw [value, hc, Nat.cast_zero, zero_mul] at h
  exact lt_irrefl _ h

theorem hasDecade_decade {d : Decimal} (h : d.coefficient ≠ 0) : HasDecade d.value d.decade := by
  have hunit : (0 : ℚ) < 10 ^ d.exponent := zpow_pos (by norm_num) _
  have hpos := length_toDigits_pos d.coefficient
  unfold decade
  rw [digitCount_eq]
  constructor
  · rw [ten_zpow_add]
    exact mul_le_mul_of_nonneg_right (Nat.cast_le.mpr (ten_pow_le_of_lt_length h (by omega))) (le_of_lt hunit)
  · rw [add_assoc, ← Nat.cast_add_one, Nat.sub_add_cancel hpos, ten_zpow_add]
    exact mul_lt_mul_of_pos_right (Nat.cast_lt.mpr (lt_ten_pow_length _)) hunit

/-- What `roundTo` does. -/
theorem roundedTo_roundTo {d : Decimal} (h : d.coefficient ≠ 0) (count : Nat) :
    RoundedTo count d.value (d.roundTo count).value := by
  refine ⟨d.decade, hasDecade_decade h, ?_⟩
  have hpos : 0 < digitCount d.coefficient := by
    rw [digitCount_eq]
    exact length_toDigits_pos _
  unfold roundTo decade
  rw [value_trim]
  dsimp only [value]
  generalize d.coefficient = c at hpos ⊢
  by_cases hle : count ≤ digitCount c
  · -- as many digits are left
    generalize hcut : digitCount c - count = cut
    have hexponent : d.exponent + ((digitCount c - 1 : Nat) : Int) + 1 - count = d.exponent + cut := by omega
    have hten : (0 : ℚ) < ((10 ^ cut : Nat) : ℚ) := Nat.cast_pos.mpr (Nat.pow_pos (by decide))
    have hvalue : (c : ℚ) / ((10 ^ cut : Nat) : ℚ) * 10 ^ (d.exponent + (cut : Int)) = c * 10 ^ d.exponent := by
      rw [ten_zpow_add, ← mul_assoc, div_mul_cancel₀ _ (ne_of_gt hten)]
    have hround := (halfEven_roundDiv c (Nat.pow_pos (n := cut) (by decide : 0 < 10))).scale
      (zpow_pos (by norm_num : (0 : ℚ) < 10) (d.exponent + (cut : Int)))
    rw [hexponent]
    rwa [hvalue, one_mul] at hround
  · -- nothing is dropped
    have hcut : digitCount c - count = 0 := by omega
    have hself : roundDiv c 1 = c := by
      have hround := roundDiv_mul_self c Nat.one_pos
      rwa [Nat.mul_one] at hround
    have hunit : (0 : ℚ) < 10 ^ (d.exponent + ((digitCount c - 1 : Nat) : Int) + 1 - count) := zpow_pos (by norm_num) _
    have hvalue : (c : ℚ) * 10 ^ d.exponent = ((c * 10 ^ (count - digitCount c) : Nat) : ℚ) *
        10 ^ (d.exponent + ((digitCount c - 1 : Nat) : Int) + 1 - count) := by
      rw [Nat.cast_mul, mul_assoc, ← ten_zpow_add]
      congr 2
      omega
    rw [hcut, Nat.pow_zero, hself, Nat.cast_zero, add_zero, hvalue]
    exact HalfEven.multiple _ hunit

end Decimal

end Reckoner
