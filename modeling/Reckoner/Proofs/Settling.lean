/-
  Reckoner.Proofs.Settling — which powers come to an end.

  The products of a number up to a half are halved at least each time, and the 1075th factor leaves
  nothing of them. Between a half and one they are not: a product of one unit is more than half a
  unit, which is rounded up to one unit again, so that they never become zero. Above one they do not fall,
  and rounding changes each by a part in `2 ^ 53` at most: so they are past every number once the powers
  of the base, a little diminished, are, and not before those of the base, a little enlarged.

  - `mul_rounds`, `mul_of_one_lt`: one product.
  - `multiplied_of_le_half`, `multiplied_between`, `multiplied_of_one_lt`: the products of a number.
  - `power_alike`: a power beside its products.
  - `past_root`, `below_root`: the powers next to the least number whose 1024th power passes two.
  - `power_settles`: which powers are zero or infinite, and which are at the greatest exponent.
-/

import Reckoner.Operation
import Reckoner.Proofs.Powers
import Reckoner.Proofs.TiesToEven

namespace Reckoner

attribute [local instance (2000)] instPowNat

/-! ## Magnitudes by their values -/

namespace Magnitude

/-- The powers of two from one down to the unit are numbers. -/
theorem exists_value_two_pow {k : Nat} (h : k ≤ 1074) : ∃ m : Magnitude, m.value = 2 ^ (-(k : Int)) := by
  obtain ⟨m, hm⟩ := exists_units_of_lt (q := 1) (e := 1074 - k) (by decide) (by omega)
  refine ⟨m, ?_⟩
  have hexponent : ((1074 - k : Nat) : Int) - 1074 = -k := by omega
  rw [value, hm, Nat.one_mul, Binary64.cast_two_pow, Binary64.cast_unitsPerOne, ← zpow_sub₀ two_ne_zero, hexponent]

theorem value_lt (m : Magnitude) : m.value < 2 ^ (1024 : Int) := by
  have hbound : (bound : ℚ) = 2 ^ (1024 + 1074 : Int) := by
    rw [bound_eq, Nat.cast_mul, Binary64.cast_two_pow, Binary64.cast_two_pow, Binary64.two_zpow_mul]
    rfl
  have hone : (0 : ℚ) < unitsPerOne := Nat.cast_pos.mpr unitsPerOne_pos
  rw [value, div_lt_iff₀ hone, Binary64.cast_unitsPerOne, Binary64.two_zpow_mul, ← hbound]
  exact Nat.cast_lt.mpr m.units_lt_bound

/-- The least number is one unit. -/
theorem unit_le_value {m : Magnitude} (h : m ≠ .zero) : 2 ^ (-1074 : Int) ≤ m.value := by
  have hone : (0 : ℚ) < unitsPerOne := Nat.cast_pos.mpr unitsPerOne_pos
  have hunits : 1 ≤ m.units := Nat.pos_of_ne_zero (fun h0 => h (units_eq_zero.mp h0))
  have hunit : (2 : ℚ) ^ (-1074 + 1074 : Int) = 1 := by norm_num
  rw [value, le_div_iff₀ hone, Binary64.cast_unitsPerOne, Binary64.two_zpow_mul, hunit]
  exact_mod_cast hunits

/-- A magnitude as a multiple of a grain up to its own. -/
theorem value_eq_div {m : Magnitude} {e k : Nat} (he : e ≤ m.exponent) (hk : e + k = 1074) :
    m.value = (m.significand * 2 ^ (m.exponent - e) : Nat) / 2 ^ k := by
  have hne : (2 : ℚ) ^ e ≠ 0 := pow_ne_zero e two_ne_zero
  unfold value unitsPerOne
  rw [units_eq_mul he, ← hk, Nat.pow_add]
  push_cast
  field_simp

variable {x : ℚ} {m : Magnitude}

/-- Rounding up does not pass a number, -/
theorem IsNearest.value_le (h : m.IsNearest x) {w : Magnitude} (hw : x ≤ w.value) : m.value ≤ w.value := by
  have hnear := h.nearest w
  have hdist := neg_abs_le (x - m.value)
  rw [abs_of_nonpos (sub_nonpos.mpr hw)] at hnear
  linarith

/-- nor does rounding down. -/
theorem IsNearest.le_value (h : m.IsNearest x) {w : Magnitude} (hw : w.value ≤ x) : w.value ≤ m.value := by
  have hnear := h.nearest w
  have hdist := le_abs_self (x - m.value)
  rw [abs_of_nonneg (sub_nonneg.mpr hw)] at hnear
  linarith

end Magnitude

namespace Binary64

open Magnitude

/-! ## One product -/

section

variable (a b : Bool) (x m : Magnitude)

theorem product_quotient : x.value * m.value * unitsPerOne = ((x.units * m.units : Nat) : ℚ) / unitsPerOne := by
  have hone : (unitsPerOne : ℚ) ≠ 0 := Nat.cast_ne_zero.mpr (Nat.ne_of_gt unitsPerOne_pos)
  unfold value
  push_cast
  field_simp

/-- A product is rounded to zero, to a number or past every one. -/
theorem mul_rounds :
    (mul (finite a x) (finite b m) = finite (a != b) .zero ↔ x.value * m.value ≤ 2 ^ (-1075 : Int)) ∧
    (2 ^ (1024 : Int) - 2 ^ (970 : Int) ≤ x.value * m.value → mul (finite a x) (finite b m) = infinite (a != b)) ∧
    (x.value * m.value < 2 ^ (1024 : Int) - 2 ^ (970 : Int) →
      ∃ p, mul (finite a x) (finite b m) = finite (a != b) p ∧ p.IsNearest (x.value * m.value)) := by
  rw [mul_finite]
  obtain ⟨hzero, hinfinite, hfinite⟩ := nearest_rounds (a != b) unitsPerOne_pos (product_quotient x m)
  exact ⟨hzero, hinfinite.mpr, hfinite⟩

/-- The product of two numbers with a full significand is changed by a small part of it. -/
theorem mul_within {p : Magnitude} (hp : mul (finite a x) (finite b m) = finite (a != b) p)
    (h : 2 ^ (-1022 : Int) ≤ x.value * m.value) :
    2 ^ 53 * |x.value * m.value - p.value| ≤ x.value * m.value := by
  rw [mul_finite] at hp
  exact mul_abs_sub_value_le unitsPerOne_pos (product_quotient x m) hp (Nat.le_refl 52) h

theorem bounds_of_within {y z : ℚ} (h : 2 ^ 53 * |y - z| ≤ y) :
    y * (1 - 1 / 2 ^ 53) ≤ z ∧ z ≤ y * (1 + 1 / 2 ^ 53) := by
  have hhigh := le_abs_self (y - z)
  have hlow := neg_abs_le (y - z)
  norm_num at h ⊢
  constructor <;> linarith

/-- A product of two numbers above one does not fall, and it is past every number or changed by a part in
    `2 ^ 53` at most. -/
theorem mul_of_one_lt {m x : Magnitude} (hm : 1 < m.value) (hx : 1 < x.value) :
    (mul (finite a x) (finite b m) = infinite (a != b) ∧ 2 ^ (1024 : Int) - 2 ^ (970 : Int) ≤ x.value * m.value) ∨
    ∃ p, mul (finite a x) (finite b m) = finite (a != b) p ∧ m.value ≤ p.value ∧
      x.value * m.value * (1 - 1 / 2 ^ 53) ≤ p.value ∧ p.value ≤ x.value * m.value * (1 + 1 / 2 ^ 53) := by
  obtain ⟨-, hinfinite, hfinite⟩ := mul_rounds a b x m
  by_cases hlast : 2 ^ (1024 : Int) - 2 ^ (970 : Int) ≤ x.value * m.value
  · exact .inl ⟨hinfinite hlast, hlast⟩
  · obtain ⟨p, hp, hnearest⟩ := hfinite (not_le.mp hlast)
    have hgrown : m.value ≤ x.value * m.value := le_mul_of_one_le_left m.value_nonneg (le_of_lt hx)
    have hnormal : (2 : ℚ) ^ (-1022 : Int) ≤ x.value * m.value := by
      have hle : (2 : ℚ) ^ (-1022 : Int) ≤ 1 := zpow_le_one_of_nonpos₀ (by norm_num) (by decide)
      linarith
    exact .inr ⟨p, hp, hnearest.le_value hgrown, bounds_of_within (mul_within a b x m hp hnormal)⟩

end

theorem two_zpow_neg_mul_half (k : Nat) : (2 : ℚ) ^ (-(k : Int)) * (1 / 2) = 2 ^ (-((k + 1 : Nat) : Int)) := by
  have hhalf : (1 / 2 : ℚ) = 2 ^ (-1 : Int) := by norm_num
  rw [hhalf, two_zpow_mul]
  congr 1
  omega

theorem one_lt_last_half : (1 : ℚ) < 2 ^ (1024 : Int) - 2 ^ (970 : Int) := by
  have hone : (1 : ℚ) < 2 ^ (970 : Int) := one_lt_zpow₀ one_lt_two (by decide)
  have htwice : (2 : ℚ) ^ (970 + 1 : Int) = 2 ^ (970 : Int) * 2 := zpow_add_one₀ two_ne_zero _
  have hle : (2 : ℚ) ^ (970 + 1 : Int) ≤ 2 ^ (1024 : Int) := zpow_le_zpow_right₀ one_le_two (by decide)
  rw [htwice] at hle
  generalize (2 : ℚ) ^ (970 : Int) = half at hone hle ⊢
  generalize (2 : ℚ) ^ (1024 : Int) = last at hle ⊢
  linarith

@[simp] theorem isZero_neg (v : Binary64) : v.neg.isZero = v.isZero := by cases v <;> rfl

/-! ## The products of a number -/

variable (b : Bool) {m : Magnitude}

theorem multiplied_zero_add {k : Nat} (h : (multiplied (finite b m) k).isZero = true) (more : Nat) :
    (multiplied (finite b m) (k + more)).isZero = true := by
  have hsettled : (multiplied (finite b m) k).isSettled = true := by rw [isSettled, h, Bool.true_or]
  rw [(multiplied_add_of_settled hsettled more).2]
  split
  · rwa [isZero_neg]
  · exact h

theorem multiplied_infinite_succ {k : Nat} {a : Bool} (h : multiplied (finite b m) k = infinite a) :
    ∃ a', multiplied (finite b m) (k + 1) = infinite a' := by
  rw [multiplied_succ_of_settled (by rw [h]; rfl), h]
  split
  · exact ⟨!a, rfl⟩
  · exact ⟨a, rfl⟩

/-- Up to a half: each product is at most half of the one before. -/
theorem multiplied_of_le_half (hm : m.value ≤ 1 / 2) {k : Nat} (hk : k ≤ 1073) :
    ∃ a x, multiplied (finite b m) k = finite a x ∧ x.value ≤ 2 ^ (-((k + 1 : Nat) : Int)) := by
  induction k with
  | zero => exact ⟨b, m, rfl, by norm_num at hm ⊢; exact hm⟩
  | succ k ih =>
    obtain ⟨a, x, hx, hle⟩ := ih (by omega)
    obtain ⟨w, hw⟩ := exists_value_two_pow (k := k + 1 + 1) (by omega)
    have hproduct : x.value * m.value ≤ w.value := by
      rw [hw, ← two_zpow_neg_mul_half]
      exact mul_le_mul hle hm m.value_nonneg (zpow_nonneg (by norm_num) _)
    have hone : w.value ≤ 1 := by
      rw [hw]
      exact zpow_le_one_of_nonpos₀ (by norm_num) (by omega)
    obtain ⟨p, hp, hnearest⟩ := (mul_rounds a b x m).2.2 (lt_of_le_of_lt (le_trans hproduct hone) one_lt_last_half)
    rw [multiplied, hx]
    exact ⟨a != b, p, hp, hw ▸ hnearest.value_le hproduct⟩

theorem multiplied_zero_of_le_half (hm : m.value ≤ 1 / 2) {k : Nat} (hk : 1074 ≤ k) :
    (multiplied (finite b m) k).isZero = true := by
  obtain ⟨more, rfl⟩ := Nat.exists_eq_add_of_le hk
  apply multiplied_zero_add
  obtain ⟨a, x, hx, hle⟩ := multiplied_of_le_half b hm (Nat.le_refl 1073)
  have hproduct : x.value * m.value ≤ 2 ^ (-1075 : Int) :=
    le_trans (mul_le_mul hle hm m.value_nonneg (zpow_nonneg (by norm_num) _)) (le_of_eq (two_zpow_neg_mul_half 1074))
  rw [multiplied, hx, (mul_rounds a b x m).1.mpr hproduct]
  rfl

/-- Between a half and one: a product is never less than a unit, and never more than one. -/
theorem multiplied_between (hlow : 1 / 2 < m.value) (hhigh : m.value ≤ 1) (k : Nat) :
    ∃ a x, multiplied (finite b m) k = finite a x ∧ x ≠ .zero ∧ x.value ≤ 1 := by
  induction k with
  | zero => exact ⟨b, m, rfl, ne_zero_of_value_pos (lt_trans one_half_pos hlow), hhigh⟩
  | succ k ih =>
    obtain ⟨a, x, hx, hne, hle⟩ := ih
    obtain ⟨hzero, -, hfinite⟩ := mul_rounds a b x m
    have hone : x.value * m.value ≤ 1 := mul_le_one₀ hle m.value_nonneg hhigh
    obtain ⟨w, hw⟩ := exists_value_two_pow (Nat.zero_le 1074)
    obtain ⟨p, hp, hnearest⟩ := hfinite (lt_of_le_of_lt hone one_lt_last_half)
    refine ⟨a != b, p, by rw [multiplied, hx, hp], ?_, ?_⟩
    · rintro rfl
      have hunit := unit_le_value hne
      have htiny := hzero.mp hp
      have hhalf : (2 : ℚ) ^ (-1074 : Int) * (1 / 2) = 2 ^ (-1075 : Int) := two_zpow_neg_mul_half 1074
      have hpos : (0 : ℚ) < 2 ^ (-1074 : Int) := zpow_pos two_pos _
      have hmore := mul_lt_mul_of_le_of_lt_of_pos_of_nonneg hunit hlow hpos m.value_nonneg
      linarith
    · have hpw := hnearest.value_le (w := w) (by rw [hw]; simpa using hone)
      rw [hw] at hpw
      simpa using hpw

/-- Above one: a product is not less than the base, and it is past every number, or between the powers of
    the base diminished and enlarged by a part in `2 ^ 53`. -/
theorem multiplied_of_one_lt (hm : 1 < m.value) (k : Nat) :
    (∃ a, multiplied (finite b m) k = infinite a ∧
      2 ^ (1024 : Int) - 2 ^ (970 : Int) ≤ (m.value * (1 + 1 / 2 ^ 53)) ^ (k + 1)) ∨
    ∃ a x, multiplied (finite b m) k = finite a x ∧ m.value ≤ x.value ∧
      (m.value * (1 - 1 / 2 ^ 53)) ^ (k + 1) ≤ x.value ∧ x.value ≤ (m.value * (1 + 1 / 2 ^ 53)) ^ (k + 1) := by
  have hpos : 0 < m.value := lt_trans one_pos hm
  have hbelow : 0 ≤ m.value * (1 - 1 / 2 ^ 53) := mul_nonneg (le_of_lt hpos) (by norm_num)
  have habove : m.value ≤ m.value * (1 + 1 / 2 ^ 53) := le_mul_of_one_le_right (le_of_lt hpos) (by norm_num)
  induction k with
  | zero =>
    refine .inr ⟨b, m, rfl, le_refl _, ?_, ?_⟩
    · rw [pow_one]
      exact mul_le_of_le_one_right (le_of_lt hpos) (by norm_num)
    · rwa [pow_one]
  | succ k ih =>
    rcases ih with ⟨a, ha, hlast⟩ | ⟨a, x, hx, hbase, hlow, hhigh⟩
    · obtain ⟨a', ha'⟩ := multiplied_infinite_succ b ha
      exact .inl ⟨a', ha', le_trans hlast (pow_le_pow_right₀ (by linarith) (Nat.le_succ _))⟩
    · rw [multiplied, hx, pow_succ _ (k + 1), pow_succ _ (k + 1)]
      rcases mul_of_one_lt a b hm (lt_of_lt_of_le hm hbase) with ⟨hinfinite, hlast⟩ | ⟨p, hp, hgrown, hless, hmore⟩
      · refine .inl ⟨_, hinfinite, le_trans hlast ?_⟩
        exact mul_le_mul hhigh habove (le_of_lt hpos) (le_trans x.value_nonneg hhigh)
      · rw [mul_assoc] at hless hmore
        refine .inr ⟨_, p, hp, hgrown, ?_, ?_⟩
        · exact le_trans (mul_le_mul_of_nonneg_right hlow hbelow) hless
        · exact le_trans hmore (mul_le_mul_of_nonneg_right hhigh (le_trans (le_of_lt hpos) habove))

/-! ## Powers -/

/-- Where the multiplication stops early, the products that it leaves out are the same but for the sign. -/
theorem power_alike (base : Binary64) (n : Nat) :
    base.power (n + 1) = multiplied base n ∨ base.power (n + 1) = (multiplied base n).neg := by
  obtain ⟨more, hle, heq, hstop, -⟩ := multiply_multiplied base 0 n
  simp only [Nat.zero_add] at heq hstop
  have hpower : base.power (n + 1) = multiplied base more := heq
  rw [hpower]
  by_cases hn : more = n
  · exact .inl (by rw [hn])
  · have hsettled := hstop (Nat.lt_of_le_of_ne hle hn)
    have hrest := (multiplied_add_of_settled hsettled (n - more)).2
    rw [Nat.add_sub_cancel' hle] at hrest
    rw [hrest]
    split
    · exact .inr (neg_neg _).symm
    · exact .inl rfl

theorem isZero_power (base : Binary64) (n : Nat) : (base.power (n + 1)).isZero = (multiplied base n).isZero := by
  rcases power_alike base n with h | h <;> simp [h]

theorem isSettled_power (base : Binary64) (n : Nat) :
    (base.power (n + 1)).isSettled = (multiplied base n).isSettled := by
  rcases power_alike base n with h | h <;> simp [h]

theorem power_infinite {base : Binary64} {n : Nat} :
    (∃ a, base.power (n + 1) = infinite a) ↔ ∃ a, multiplied base n = infinite a := by
  rcases power_alike base n with h | h
  · rw [h]
  · rw [h]
    rcases multiplied base n with _ | a | ⟨a, x⟩ <;> simp [neg]

theorem not_settled_finite {a : Bool} {x : Magnitude} (h : x ≠ .zero) : (finite a x).isSettled = false := by
  simp [isSettled, isZero, isFinite, h]

section

variable {n : Nat}

theorem power_of_le_half (hm : m.value ≤ 1 / 2) (hn : 1075 ≤ n) : ((finite b m).power n).isZero = true := by
  obtain ⟨k, rfl⟩ := Nat.exists_eq_succ_of_ne_zero (by omega : n ≠ 0)
  rw [isZero_power]
  exact multiplied_zero_of_le_half b hm (by omega)

theorem power_between (hlow : 1 / 2 < m.value) (hhigh : m.value ≤ 1) (hn : 0 < n) :
    ((finite b m).power n).isSettled = false := by
  obtain ⟨k, rfl⟩ := Nat.exists_eq_succ_of_ne_zero (Nat.ne_of_gt hn)
  obtain ⟨a, x, hx, hne, -⟩ := multiplied_between b hlow hhigh k
  rw [isSettled_power, hx, not_settled_finite hne]

section

variable (hm : 1 < m.value) (hn : 0 < n)
include hm hn

theorem power_of_one_lt : ((finite b m).power n).isZero = false := by
  obtain ⟨k, rfl⟩ := Nat.exists_eq_succ_of_ne_zero (Nat.ne_of_gt hn)
  rw [isZero_power]
  rcases multiplied_of_one_lt b hm k with ⟨a, ha, -⟩ | ⟨a, x, hx, hle, -⟩
  · rw [ha]
    rfl
  · have hne := ne_zero_of_value_pos (lt_of_lt_of_le (lt_trans one_pos hm) hle)
    rw [hx]
    exact beq_eq_false_iff_ne.mpr hne

theorem power_past (h : 2 ^ (1024 : Int) ≤ (m.value * (1 - 1 / 2 ^ 53)) ^ n) :
    ∃ a, (finite b m).power n = infinite a := by
  obtain ⟨k, rfl⟩ := Nat.exists_eq_succ_of_ne_zero (Nat.ne_of_gt hn)
  rw [power_infinite]
  rcases multiplied_of_one_lt b hm k with ⟨a, ha, -⟩ | ⟨a, x, -, -, hlow, -⟩
  · exact ⟨a, ha⟩
  · exact absurd x.value_lt (not_lt.mpr (le_trans h hlow))

theorem power_not_past (h : (m.value * (1 + 1 / 2 ^ 53)) ^ n < 2 ^ (1024 : Int) - 2 ^ (970 : Int)) :
    ((finite b m).power n).isSettled = false := by
  obtain ⟨k, rfl⟩ := Nat.exists_eq_succ_of_ne_zero (Nat.ne_of_gt hn)
  rcases multiplied_of_one_lt b hm k with ⟨a, -, hlast⟩ | ⟨a, x, hx, hle, -⟩
  · exact absurd h (not_lt.mpr hlast)
  · have hne := ne_zero_of_value_pos (lt_of_lt_of_le (lt_trans one_pos hm) hle)
    rw [isSettled_power, hx, not_settled_finite hne]

end

end

/-! ## The greatest exponent -/

/-- The least number whose 1024th power is greater than two. The powers of those above it are past every
    number at the greatest exponent, and those of the numbers below it are not. -/
def leastRoot : ℚ := 4506649152907471 / 2 ^ 52

theorem one_lt_leastRoot : 1 < leastRoot := by
  unfold leastRoot
  norm_num

/-- Above one the numbers are multiples of a part in `2 ^ 52`. -/
theorem value_multiple {m : Magnitude} (h : 1 < m.value) : ∃ q : Nat, m.value = q / 2 ^ 52 := by
  have hexponent : 1022 ≤ m.exponent := by
    by_contra hlt
    have hgrain := m.units_add_grain_le
    have hone : 2 ^ (53 : Nat) * 2 ^ m.exponent ≤ unitsPerOne := by
      have hle : 53 + m.exponent ≤ 1074 := by omega
      unfold unitsPerOne
      generalize 1074 = one at hle ⊢
      rw [← Nat.pow_add]
      exact Nat.pow_le_pow_right Nat.two_pos hle
    have hcast : (m.units : ℚ) ≤ unitsPerOne := Nat.cast_le.mpr (Nat.le_trans (Nat.le_of_add_right_le hgrain) hone)
    exact absurd h (not_lt.mpr (div_le_one_of_le₀ hcast (Nat.cast_nonneg _)))
  exact ⟨_, value_eq_div hexponent (by decide)⟩

theorem le_of_root_lt {m : Magnitude} (h : leastRoot < m.value) : leastRoot + 1 / 2 ^ 52 ≤ m.value := by
  obtain ⟨q, hq⟩ := value_multiple (lt_trans one_lt_leastRoot h)
  have hunit : (0 : ℚ) < 2 ^ 52 := by norm_num
  rw [hq, leastRoot, div_lt_div_iff_of_pos_right hunit] at h
  have hlt : 4506649152907471 < q := by exact_mod_cast h
  rw [hq, leastRoot, ← add_div]
  refine div_le_div_of_nonneg_right ?_ (le_of_lt hunit)
  exact_mod_cast hlt

theorem le_of_lt_root {m : Magnitude} (hone : 1 < m.value) (h : m.value < leastRoot) :
    m.value ≤ leastRoot - 1 / 2 ^ 52 := by
  obtain ⟨q, hq⟩ := value_multiple hone
  have hunit : (0 : ℚ) < 2 ^ 52 := by norm_num
  rw [hq, leastRoot, div_lt_div_iff_of_pos_right hunit] at h
  have hlt : q + 1 ≤ 4506649152907471 := by exact_mod_cast h
  rw [hq, leastRoot, ← sub_div]
  refine div_le_div_of_nonneg_right (le_sub_iff_add_le.mpr ?_) (le_of_lt hunit)
  exact_mod_cast hlt

theorem maxExponent_pos : 0 < maxExponent := by decide

theorem pow_maxExponent (c : ℚ) : c ^ maxExponent = (c ^ 1024) ^ 1024 := by
  have hlimit : maxExponent = 1024 * 1024 := by decide
  rw [hlimit, pow_mul]

section

variable {a d n k : Nat} (hd : 0 < d)
include hd

theorem lt_pow_div (h : k * d ^ n < a ^ n) : (k : ℚ) < ((a : ℚ) / d) ^ n := by
  have hpos : (0 : ℚ) < (d : ℚ) ^ n := pow_pos (Nat.cast_pos.mpr hd) n
  rw [div_pow, lt_div_iff₀ hpos]
  exact_mod_cast h

theorem mul_pow_div_le {j : Nat} (h : j * a ^ n ≤ k * d ^ n) : (j : ℚ) * ((a : ℚ) / d) ^ n ≤ k := by
  have hpos : (0 : ℚ) < (d : ℚ) ^ n := pow_pos (Nat.cast_pos.mpr hd) n
  rw [div_pow, ← mul_div_assoc, div_le_iff₀ hpos]
  exact_mod_cast h

end

theorem two_lt_root_pow : 2 < leastRoot ^ 1024 := by
  have htwo : ((2 : Nat) : ℚ) < (((4506649152907471 : Nat) : ℚ) / ((2 ^ 52 : Nat) : ℚ)) ^ 1024 := by
    refine lt_pow_div (by decide) ?_
    decide +kernel
  have hquotient : leastRoot = ((4506649152907471 : Nat) : ℚ) / ((2 ^ 52 : Nat) : ℚ) := by
    unfold leastRoot
    norm_num
  rwa [← hquotient, Nat.cast_ofNat] at htwo

theorem pow_before_root : (leastRoot - 1 / 2 ^ 52) ^ 1024 ≤ 2 := by
  have htwo : ((1 : Nat) : ℚ) * (((4506649152907470 : Nat) : ℚ) / ((2 ^ 52 : Nat) : ℚ)) ^ 1024 ≤ ((2 : Nat) : ℚ) := by
    refine mul_pow_div_le (by decide) ?_
    decide +kernel
  have hquotient : leastRoot - 1 / 2 ^ 52 = ((4506649152907470 : Nat) : ℚ) / ((2 ^ 52 : Nat) : ℚ) := by
    unfold leastRoot
    norm_num
  rwa [← hquotient, Nat.cast_one, one_mul, Nat.cast_ofNat] at htwo

/-- There is no lesser number with such a power. -/
theorem root_le_iff (m : Magnitude) : leastRoot ≤ m.value ↔ 2 < m.value ^ 1024 := by
  have hroot := one_lt_leastRoot
  constructor
  · intro h
    exact lt_of_lt_of_le two_lt_root_pow (pow_le_pow_left₀ (by linarith) h 1024)
  · intro h
    by_contra hlt
    refine absurd h (not_lt.mpr ?_)
    by_cases hone : m.value ≤ 1
    · exact le_trans (pow_le_one₀ m.value_nonneg hone) one_le_two
    · have hle := le_of_lt_root (not_le.mp hone) (not_le.mp hlt)
      exact le_trans (pow_le_pow_left₀ m.value_nonneg hle 1024) pow_before_root

theorem past_root : 2 ^ (1024 : Int) ≤ ((leastRoot + 1 / 2 ^ 52) * (1 - 1 / 2 ^ 53)) ^ maxExponent := by
  have hquotient : (leastRoot + 1 / 2 ^ 52) * (1 - 1 / 2 ^ 53) =
      ((4506649152907472 * (2 ^ 53 - 1) : Nat) : ℚ) / ((2 ^ 105 : Nat) : ℚ) := by
    unfold leastRoot
    norm_num
  have htwo : ((2 : Nat) : ℚ) < (((4506649152907472 * (2 ^ 53 - 1) : Nat) : ℚ) / ((2 ^ 105 : Nat) : ℚ)) ^ 1024 := by
    refine lt_pow_div (by decide) ?_
    decide +kernel
  rw [← hquotient, Nat.cast_ofNat] at htwo
  rw [pow_maxExponent, zpow_ofNat]
  exact pow_le_pow_left₀ zero_le_two (le_of_lt htwo) 1024

theorem below_root :
    ((leastRoot - 1 / 2 ^ 52) * (1 + 1 / 2 ^ 53)) ^ maxExponent < 2 ^ (1024 : Int) - 2 ^ (970 : Int) := by
  have hquotient : (leastRoot - 1 / 2 ^ 52) * (1 + 1 / 2 ^ 53) =
      ((4506649152907470 * (2 ^ 53 + 1) : Nat) : ℚ) / ((2 ^ 105 : Nat) : ℚ) := by
    unfold leastRoot
    norm_num
  have htwo : ((2 ^ 44 : Nat) : ℚ) *
      (((4506649152907470 * (2 ^ 53 + 1) : Nat) : ℚ) / ((2 ^ 105 : Nat) : ℚ)) ^ 1024 ≤ ((2 * (2 ^ 44 - 1) : Nat) : ℚ) := by
    refine mul_pow_div_le (by decide) ?_
    decide +kernel
  rw [← hquotient] at htwo
  have hnonneg : 0 ≤ (leastRoot - 1 / 2 ^ 52) * (1 + 1 / 2 ^ 53) := by
    rw [hquotient]
    positivity
  generalize (leastRoot - 1 / 2 ^ 52) * (1 + 1 / 2 ^ 53) = c at htwo hnonneg
  have hroot : c ^ 1024 ≤ 2 * (1 - 1 / 2 ^ 44) := by
    generalize c ^ 1024 = power at htwo
    norm_num at htwo ⊢
    linarith
  have hgap : (2 : ℚ) ^ (1024 : Int) * (1 / 2 ^ 44) = 2 ^ (980 : Int) := by
    have hpow : (1 / 2 ^ 44 : ℚ) = 2 ^ (-44 : Int) := by norm_num
    rw [hpow, two_zpow_mul]
    rfl
  rw [pow_maxExponent]
  calc (c ^ 1024) ^ 1024 ≤ (2 * (1 - 1 / 2 ^ 44)) ^ 1024 := pow_le_pow_left₀ (pow_nonneg hnonneg _) hroot _
    _ = 2 ^ (1024 : Int) * (1 - 1 / 2 ^ 44) ^ 1024 := by rw [mul_pow, zpow_ofNat]
    _ ≤ 2 ^ (1024 : Int) * (1 - 1 / 2 ^ 44) := by
      refine mul_le_mul_of_nonneg_left ?_ (zpow_nonneg zero_le_two _)
      exact pow_le_of_le_one (by norm_num) (by norm_num) (by decide)
    _ = 2 ^ (1024 : Int) - 2 ^ (980 : Int) := by rw [mul_sub, mul_one, hgap]
    _ < 2 ^ (1024 : Int) - 2 ^ (970 : Int) := sub_lt_sub_left (zpow_lt_zpow_right₀ one_lt_two (by decide)) _

theorem limit_past (h : leastRoot < m.value) : ∃ a, (finite b m).power maxExponent = infinite a := by
  refine power_past b (lt_trans one_lt_leastRoot h) maxExponent_pos (le_trans past_root ?_)
  refine pow_le_pow_left₀ ?_ (mul_le_mul_of_nonneg_right (le_of_root_lt h) (by norm_num)) _
  exact mul_nonneg (by linarith [one_lt_leastRoot]) (by norm_num)

/-- Between a half and `leastRoot` no power has come to an end at the greatest exponent. -/
theorem limit_unsettled (hlow : 1 / 2 < m.value) (h : m.value < leastRoot) :
    ((finite b m).power maxExponent).isSettled = false := by
  by_cases hhigh : m.value ≤ 1
  · exact power_between b hlow hhigh maxExponent_pos
  · have hm := not_le.mp hhigh
    refine power_not_past b hm maxExponent_pos (lt_of_le_of_lt ?_ below_root)
    refine pow_le_pow_left₀ ?_ (mul_le_mul_of_nonneg_right (le_of_lt_root hm h) (by norm_num)) _
    exact mul_nonneg m.value_nonneg (by norm_num)

theorem limit_ne_zero (hlow : 1 / 2 < m.value) : ((finite b m).power maxExponent).isZero = false := by
  by_cases hhigh : m.value ≤ 1
  · have hsettled := power_between b hlow hhigh maxExponent_pos
    rw [isSettled, Bool.or_eq_false_iff] at hsettled
    exact hsettled.1
  · exact power_of_one_lt b (not_le.mp hhigh) maxExponent_pos

/-- The powers of a finite number. Up to a half they are zero from the exponent 1075 on. Between a half and
    one they never are, however great the exponent, and neither are they infinite. Above one they are not
    zero, and infinite once the powers of the base less a part in `2 ^ 53` are past every number; as long as
    those of the base and such a part more are not, they are not infinite either. So at the greatest
    exponent the powers of the numbers up to a half are zero, those of the numbers above `leastRoot` are
    infinite, and all others, but perhaps that of `leastRoot` itself, are neither; it is the least number
    whose 1024th power is greater than two. -/
theorem power_settles (negative : Bool) (m : Magnitude) :
    (m.value ≤ 1 / 2 → ∀ n, 1075 ≤ n → ((finite negative m).power n).isZero = true) ∧
    (1 / 2 < m.value → m.value ≤ 1 → ∀ n, 0 < n → ((finite negative m).power n).isSettled = false) ∧
    (1 < m.value → ∀ n, 0 < n → ((finite negative m).power n).isZero = false ∧
      (2 ^ (1024 : Int) ≤ (m.value * (1 - 1 / 2 ^ 53)) ^ n → ∃ a, (finite negative m).power n = infinite a) ∧
      ((m.value * (1 + 1 / 2 ^ 53)) ^ n < 2 ^ (1024 : Int) - 2 ^ (970 : Int) →
        ((finite negative m).power n).isSettled = false)) ∧
    (((finite negative m).power maxExponent).isZero = true ↔ m.value ≤ 1 / 2) ∧
    (m.value ≠ leastRoot → ((∃ a, (finite negative m).power maxExponent = infinite a) ↔ leastRoot < m.value)) ∧
    (leastRoot ≤ m.value ↔ 2 < m.value ^ 1024) := by
  refine ⟨fun hm n => power_of_le_half negative hm, fun hlow hhigh n => power_between negative hlow hhigh, ?_, ?_, ?_,
    root_le_iff m⟩
  · intro hm n hn
    exact ⟨power_of_one_lt negative hm hn, power_past negative hm hn, power_not_past negative hm hn⟩
  · constructor
    · intro hzero
      by_contra hlow
      rw [limit_ne_zero negative (not_le.mp hlow)] at hzero
      cases hzero
    · intro hm
      exact power_of_le_half negative hm (by decide)
  · intro hne
    constructor
    · rintro ⟨a, ha⟩
      by_contra hroot
      by_cases hlow : m.value ≤ 1 / 2
      · have hzero := power_of_le_half negative hlow (by decide : 1075 ≤ maxExponent)
        rw [ha] at hzero
        cases hzero
      · have hsettled := limit_unsettled negative (not_le.mp hlow) (lt_of_le_of_ne (not_lt.mp hroot) hne)
        rw [ha] at hsettled
        cases hsettled
    · exact limit_past negative

/-- Minus one and a half, and the number next to one. -/
theorem power_settles_next_to_one :
    (∃ a, (ofBits 0xbff8000000000000).power maxExponent = infinite a) ∧
      ((ofBits 0x3ff0000000000001).power maxExponent).isZero = false ∧
      ¬ ∃ a, (ofBits 0x3ff0000000000001).power maxExponent = infinite a := by
  let high : Magnitude := ⟨3 * 2 ^ (51 : Nat), 1022, by decide, by decide, .inr (by decide)⟩
  let next : Magnitude := ⟨2 ^ (52 : Nat) + 1, 1022, by decide, by decide, .inr (by decide)⟩
  have hhigh : ofBits 0xbff8000000000000 = finite true high := by decide +kernel
  have hnext : ofBits 0x3ff0000000000001 = finite false next := by decide +kernel
  have hvalue : high.value = 3 / 2 := by
    rw [Magnitude.value_eq_div (Nat.le_refl _) (by decide : 1022 + 52 = 1074)]
    norm_num [high]
  have hvalue' : next.value = (2 ^ 52 + 1) / 2 ^ 52 := by
    rw [Magnitude.value_eq_div (Nat.le_refl _) (by decide : 1022 + 52 = 1074)]
    norm_num [next]
  obtain ⟨-, -, -, -, hinfinite, -⟩ := power_settles true high
  obtain ⟨-, -, -, hzero, hinfinite', -⟩ := power_settles false next
  rw [hvalue] at hinfinite
  rw [hvalue'] at hzero hinfinite'
  rw [hhigh, hnext]
  refine ⟨(hinfinite ?_).mpr ?_, Bool.eq_false_iff.mpr fun h => ?_, fun h => ?_⟩
  · norm_num [leastRoot]
  · norm_num [leastRoot]
  · have hle := hzero.mp h
    norm_num at hle
  · have hlt := (hinfinite' (by norm_num [leastRoot])).mp h
    norm_num [leastRoot] at hlt

/-- The powers of three quarters come to two units, and are rounded to these again and again. -/
theorem three_quarters_never_vanish : ((ofBits 0x3fe8000000000000).power maxExponent).isSettled = false := by
  let m : Magnitude := ⟨3 * 2 ^ (51 : Nat), 1021, by decide, by decide, .inr (by decide)⟩
  have hbits : ofBits 0x3fe8000000000000 = finite false m := by decide +kernel
  have hvalue : m.value = 3 / 4 := by
    rw [Magnitude.value_eq_div (Nat.le_refl _) (by decide : 1021 + 53 = 1074)]
    norm_num [m]
  rw [hbits]
  exact power_between false (by rw [hvalue]; norm_num) (by rw [hvalue]; norm_num) maxExponent_pos

end Binary64

end Reckoner
