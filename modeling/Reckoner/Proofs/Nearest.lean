/-
  Reckoner.Proofs.Nearest — rounding goes to the nearest number.

  What is rounded is a quotient of whole numbers of units, taken here as a rational. It is moved to
  a multiple of its grain (`rounded`), and no number lies nearer (`rounded_nearest`). Two numbers
  are at least a part in `2 ^ 53` of either apart, so that what is closer than half of that to a
  number is rounded to it.

  - `nearest_of_close`: what is close enough to a number is rounded to it.
  - `nearest_units`: a number is its own nearest one.
-/

import Mathlib.Algebra.Order.Field.Basic
import Mathlib.Algebra.Order.Field.Rat
import Mathlib.Data.Nat.Cast.Order.Field
import Mathlib.Tactic.FieldSimp
import Mathlib.Tactic.Linarith
import Mathlib.Tactic.Positivity
import Mathlib.Tactic.Ring
import Reckoner.Binary64.Rounding

namespace Reckoner

attribute [local instance (2000)] instPowNat

/-! ## The nearest whole number -/

/-- A quotient is moved by a half at most. -/
theorem abs_sub_roundDiv_le (n : Nat) {d : Nat} (hd : 0 < d) : 2 * |(n : ℚ) / d - roundDiv n d| ≤ 1 := by
  have hd' : (0 : ℚ) < d := by exact_mod_cast hd
  have hq : (n : ℚ) / d = (n / d : Nat) + (n % d : Nat) / (d : ℚ) := by
    have h : (d * (n / d) + n % d : Nat) = n := Nat.div_add_mod n d
    field_simp
    rw [← Nat.cast_mul, ← Nat.cast_add, h]
  have hr : ((n % d : Nat) : ℚ) / d < 1 := (div_lt_one hd').mpr (by exact_mod_cast Nat.mod_lt n hd)
  have hr' : (0 : ℚ) ≤ ((n % d : Nat) : ℚ) / d := by positivity
  unfold roundDiv
  dsimp only
  split
  · rename_i h
    have hle : 2 * (n % d) ≤ d := by omega
    have hhalf : 2 * (((n % d : Nat) : ℚ) / d) ≤ 1 := by
      rw [← mul_div_assoc, div_le_one hd']
      exact_mod_cast hle
    rw [hq, add_sub_cancel_left, abs_of_nonneg hr']
    exact hhalf
  · rename_i h
    have hle : d ≤ 2 * (n % d) := by omega
    have hhalf : 1 ≤ 2 * (((n % d : Nat) : ℚ) / d) := by
      rw [← mul_div_assoc, one_le_div hd']
      exact_mod_cast hle
    rw [hq, Nat.cast_add, Nat.cast_one, add_sub_add_left_eq_sub, abs_of_nonpos (by linarith)]
    linarith

/-- No whole number lies nearer to a rational than one that is a half away at most. -/
theorem abs_sub_le_of_half {x : ℚ} {q : Nat} (h : 2 * |x - q| ≤ 1) (k : Nat) : |x - q| ≤ |x - k| := by
  rcases eq_or_ne q k with rfl | hne
  · exact le_refl _
  · have hone : (1 : ℚ) ≤ |(q : ℚ) - k| := by
      have hz : (1 : Int) ≤ |(q : Int) - k| := Int.one_le_abs (by omega)
      exact_mod_cast hz
    have htri : |(q : ℚ) - k| ≤ |x - q| + |x - k| := by
      rw [abs_sub_comm x q]
      exact abs_sub_le _ _ _
    linarith

/-! ## Magnitudes -/

namespace Magnitude

/-- The number, exactly. -/
def value (m : Magnitude) : ℚ := m.units / unitsPerOne

theorem value_nonneg (m : Magnitude) : 0 ≤ m.value := by
  unfold value
  positivity

theorem value_zero : zero.value = 0 := by
  rw [value, units_eq_zero.mpr rfl, Nat.cast_zero, zero_div]

theorem ne_zero_of_value_pos {m : Magnitude} (h : 0 < m.value) : m ≠ .zero := by
  rintro rfl
  rw [value_zero] at h
  exact lt_irrefl 0 h

theorem value_lt_value {m n : Magnitude} : m.value < n.value ↔ m.units < n.units := by
  have hone : (0 : ℚ) < unitsPerOne := Nat.cast_pos.mpr unitsPerOne_pos
  rw [value, value, div_lt_div_iff_of_pos_right hone, Nat.cast_lt]

theorem value_le_value {m n : Magnitude} : m.value ≤ n.value ↔ m.units ≤ n.units := by
  rw [← not_lt, value_lt_value, not_lt]

/-- The significand is doubled until it is great enough for its exponent. -/
theorem exists_units_of_lt {q e : Nat} (hq : q < 2 ^ (53 : Nat)) (he : e ≤ 2045) :
    ∃ m : Magnitude, m.units = q * 2 ^ e := by
  induction e generalizing q with
  | zero => exact ⟨⟨q, 0, hq, by decide, .inl rfl⟩, rfl⟩
  | succ e ih =>
    rcases Nat.lt_or_ge q (2 ^ (52 : Nat)) with hsmall | hn
    · obtain ⟨m, hm⟩ := ih (q := q * 2) (by omega) (by omega)
      refine ⟨m, ?_⟩
      rw [hm, Nat.mul_assoc, ← Nat.pow_succ']
    · exact ⟨⟨q, e + 1, hq, he, .inr hn⟩, rfl⟩

theorem exists_units {q e : Nat} (hq : q ≤ 2 ^ (53 : Nat)) (he : e ≤ 2044) :
    ∃ m : Magnitude, m.units = q * 2 ^ e := by
  rcases Nat.lt_or_eq_of_le hq with hlt | rfl
  · exact exists_units_of_lt hlt (Nat.le_succ_of_le he)
  · refine ⟨⟨2 ^ (52 : Nat), e + 1, leastNormal_lt, by omega, .inr (Nat.le_refl _)⟩, ?_⟩
    rw [units, Nat.pow_succ 2 52, Nat.mul_assoc, ← Nat.pow_succ']

/-- A magnitude is a multiple of every grain up to its own. -/
theorem units_eq_mul {m : Magnitude} {e : Nat} (h : e ≤ m.exponent) :
    m.units = m.significand * 2 ^ (m.exponent - e) * 2 ^ e := by
  rw [units, Nat.mul_assoc, ← Nat.pow_add, Nat.sub_add_cancel h]

/-! ## Distances between numbers -/

/-- Past every magnitude: the number of units that would need the next exponent. -/
def bound : Nat := 2 ^ (53 : Nat) * 2 ^ (2045 : Nat)

theorem units_add_grain_le (m : Magnitude) : m.units + 2 ^ m.exponent ≤ 2 ^ (53 : Nat) * 2 ^ m.exponent := by
  rw [units, ← Nat.succ_mul]
  exact Nat.mul_le_mul_right _ m.significand_lt

theorem grain_le_bound {e : Nat} (h : e ≤ 2045) : 2 ^ (53 : Nat) * 2 ^ e ≤ bound := by
  unfold bound
  generalize 2045 = last at h ⊢
  exact Nat.mul_le_mul_left _ (Nat.pow_le_pow_right Nat.two_pos h)

theorem units_add_grain_le_bound (m : Magnitude) : m.units + 2 ^ m.exponent ≤ bound :=
  Nat.le_trans m.units_add_grain_le (grain_le_bound m.exponent_le)

theorem units_lt_bound (m : Magnitude) : m.units < bound :=
  Nat.lt_of_lt_of_le (Nat.lt_add_of_pos_right (Nat.two_pow_pos _)) m.units_add_grain_le_bound

/-- A magnitude of a smaller exponent ends a whole grain before those of the next one begin. -/
theorem units_le_of_exponent_lt {m n : Magnitude} (h : m.exponent < n.exponent) :
    m.units ≤ (2 ^ (53 : Nat) - 1) * 2 ^ (n.exponent - 1) := by
  have hs : m.significand ≤ 2 ^ (53 : Nat) - 1 := Nat.le_sub_one_of_lt m.significand_lt
  exact Nat.mul_le_mul hs (Nat.pow_le_pow_right (by decide) (by omega))

/-- What is a number or past every one is equal to a magnitude, or apart from it by a part in
    `2 ^ 53` of it. -/
theorem units_le_mul_natAbs_sub (m : Magnitude) {w : Nat} (hw : (∃ n : Magnitude, n.units = w) ∨ bound ≤ w)
    (hne : w ≠ m.units) : m.units ≤ 2 ^ (53 : Nat) * ((m.units : Int) - w).natAbs := by
  have hgrain := m.units_add_grain_le
  -- it is enough that they are a grain apart
  have hapart : 2 ^ m.exponent ≤ ((m.units : Int) - w).natAbs →
      m.units ≤ 2 ^ (53 : Nat) * ((m.units : Int) - w).natAbs := by
    intro h
    have hmul := Nat.mul_le_mul_left (2 ^ (53 : Nat)) h
    omega
  rcases hw with ⟨n, rfl⟩ | hb
  · rcases Nat.lt_or_ge n.exponent m.exponent with hlt | hge
    · have hle := units_le_of_exponent_lt hlt
      have hn : 2 ^ (52 : Nat) ≤ m.significand := m.normal.resolve_left (by omega)
      have hpow : 2 ^ m.exponent = 2 ^ (m.exponent - 1) * 2 := by
        rw [← Nat.pow_succ, Nat.succ_eq_add_one, Nat.sub_add_cancel (by omega)]
      have hu : m.units = 2 * (m.significand * 2 ^ (m.exponent - 1)) := by rw [units, hpow]; ring
      have hs := Nat.mul_le_mul_right (2 ^ (m.exponent - 1)) hn
      generalize m.significand * 2 ^ (m.exponent - 1) = a at hu hs
      generalize 2 ^ (m.exponent - 1) = g at hle hs
      omega
    · refine hapart ?_
      have hmul := units_eq_mul hge
      generalize n.significand * 2 ^ (n.exponent - m.exponent) = k at hmul
      have hk : k ≠ m.significand := by
        rintro rfl
        exact hne hmul
      rw [hmul, units]
      generalize 2 ^ m.exponent = g
      rcases Nat.lt_or_gt_of_ne hk with h | h
      · have hsucc := Nat.mul_le_mul_right g h
        rw [Nat.succ_mul] at hsucc
        omega
      · have hsucc := Nat.mul_le_mul_right g h
        rw [Nat.succ_mul] at hsucc
        omega
  · refine hapart ?_
    have hle := m.units_add_grain_le_bound
    omega

end Magnitude

/-! ## The nearest number -/

namespace Binary64

/-- The multiple of the grain to which `n / d` is moved, in units. -/
def rounded (n d : Nat) : Nat := roundDiv n (d * 2 ^ grain n d) * 2 ^ grain n d

theorem bound_le {q e : Nat} (hq : 2 ^ (52 : Nat) ≤ q) (h : 2046 ≤ e) : Magnitude.bound ≤ q * 2 ^ e := by
  have hbound : Magnitude.bound = 2 ^ (52 : Nat) * 2 ^ 2046 := by
    unfold Magnitude.bound
    generalize hk : 2045 = k
    rw [show 2046 = k + 1 by omega, Nat.pow_succ]
    omega
  rw [hbound]
  generalize 2046 = k at h ⊢
  exact Nat.mul_le_mul hq (Nat.pow_le_pow_right Nat.two_pos h)

theorem pack_cases (negative : Bool) {q e : Nat} (hq : q ≤ 2 ^ (53 : Nat)) (he : e = 0 ∨ 2 ^ (52 : Nat) ≤ q) :
    (∃ m, pack negative q e hq he = .finite negative m ∧ m.units = q * 2 ^ e) ∨
      pack negative q e hq he = .infinite negative ∧ Magnitude.bound ≤ q * 2 ^ e := by
  unfold pack
  by_cases h : q = 2 ^ (53 : Nat)
  · have hnext : q * 2 ^ e = 2 ^ (52 : Nat) * 2 ^ (e + 1) := by
      rw [h, Nat.pow_succ]
      omega
    rw [dif_pos h]
    by_cases h' : e + 1 ≤ 2045
    · rw [dif_pos h']
      exact .inl ⟨_, rfl, hnext.symm⟩
    · rw [dif_neg h', hnext]
      exact .inr ⟨rfl, bound_le (Nat.le_refl _) (by omega)⟩
  · rw [dif_neg h]
    by_cases h' : e ≤ 2045
    · rw [dif_pos h']
      exact .inl ⟨_, rfl, rfl⟩
    · rw [dif_neg h']
      exact .inr ⟨rfl, bound_le (he.resolve_left (by omega)) (by omega)⟩

theorem nearest_cases (negative : Bool) (n d : Nat) :
    (∃ m, nearest negative n d = .finite negative m ∧ m.units = rounded n d) ∨
      nearest negative n d = .infinite negative ∧ Magnitude.bound ≤ rounded n d :=
  pack_cases negative _ _

theorem units_of_nearest {negative : Bool} {n d : Nat} {m : Magnitude} (h : nearest negative n d = .finite negative m) :
    m.units = rounded n d := by
  rcases nearest_cases negative n d with ⟨m', hm', hunits⟩ | ⟨hinfinite, -⟩
  · rw [← (finite.inj (hm'.symm.trans h)).2, hunits]
  · rw [hinfinite] at h
    cases h

theorem nearest_of_rounded (negative : Bool) {n d : Nat} {m : Magnitude} (h : rounded n d = m.units) :
    nearest negative n d = .finite negative m := by
  rcases nearest_cases negative n d with ⟨m', hn, hu⟩ | ⟨-, hb⟩
  · rw [hn, Magnitude.units_injective (hu.trans h)]
  · rw [h] at hb
    exact absurd m.units_lt_bound (Nat.not_lt_of_le hb)

section

variable (n : Nat) {d : Nat} (hd : 0 < d)
include hd

/-- The distance to a multiple of the grain, in grains. -/
theorem abs_sub_multiple (k : Nat) :
    |(n : ℚ) / d - (k * 2 ^ grain n d : Nat)| = |(n : ℚ) / (d * 2 ^ grain n d : Nat) - k| * (2 ^ grain n d : Nat) := by
  have hg : 0 < 2 ^ grain n d := Nat.two_pow_pos _
  generalize 2 ^ grain n d = g at hg
  have hg' : (0 : ℚ) < g := by exact_mod_cast hg
  have hd' : (0 : ℚ) < d := by exact_mod_cast hd
  have hx : (n : ℚ) / d = (n : ℚ) / (d * g : Nat) * g := by
    push_cast
    field_simp
  rw [hx, Nat.cast_mul k g, ← sub_mul, abs_mul, abs_of_pos hg']

/-- A quotient is moved by half a grain at most. -/
theorem abs_sub_rounded_le : 2 * |(n : ℚ) / d - rounded n d| ≤ (2 ^ grain n d : Nat) := by
  have hg : 0 < 2 ^ grain n d := Nat.two_pow_pos _
  have hhalf := abs_sub_roundDiv_le n (Nat.mul_pos hd hg)
  rw [rounded, abs_sub_multiple n hd, ← mul_assoc]
  exact mul_le_of_le_one_left (Nat.cast_nonneg _) hhalf

omit hd in
/-- A quotient is at least so many grains. -/
theorem two_pow_mul_grain_le {j : Nat} (hj : j ≤ 52) (h : (2 : ℚ) ^ j ≤ (n : ℚ) / d) :
    (2 : ℚ) ^ j * (2 ^ grain n d : Nat) ≤ (n : ℚ) / d := by
  by_cases hg : grain n d = 0
  · rwa [hg, Nat.pow_zero, Nat.cast_one, mul_one]
  · have hquotient : ((2 ^ (grain n d + 52) : Nat) : ℚ) ≤ (n : ℚ) / d :=
      le_trans (Nat.cast_le.mpr (le_quotient hg)) Nat.cast_div_le
    have hle : 2 ^ j * 2 ^ grain n d ≤ 2 ^ (grain n d + 52) := by
      rw [← Nat.pow_add]
      exact Nat.pow_le_pow_right Nat.two_pos (by omega)
    refine le_trans ?_ hquotient
    exact_mod_cast hle

/-- A quotient is moved by a small part of it. -/
theorem mul_abs_sub_rounded_le {j : Nat} (hj : j ≤ 52) (h : (2 : ℚ) ^ j ≤ (n : ℚ) / d) :
    2 ^ (j + 1) * |(n : ℚ) / d - rounded n d| ≤ (n : ℚ) / d := by
  have hhalf := abs_sub_rounded_le n hd
  have hgrain := two_pow_mul_grain_le n hj h
  have hpos : (0 : ℚ) < 2 ^ j := by positivity
  calc 2 ^ (j + 1) * |(n : ℚ) / d - rounded n d| = 2 ^ j * (2 * |(n : ℚ) / d - rounded n d|) := by ring
    _ ≤ 2 ^ j * (2 ^ grain n d : Nat) := mul_le_mul_of_nonneg_left hhalf (le_of_lt hpos)
    _ ≤ (n : ℚ) / d := hgrain

/-- No multiple of the grain lies nearer. -/
theorem rounded_nearest_multiple (k : Nat) :
    |(n : ℚ) / d - rounded n d| ≤ |(n : ℚ) / d - (k * 2 ^ grain n d : Nat)| := by
  have hg : 0 < 2 ^ grain n d := Nat.two_pow_pos _
  have hhalf := abs_sub_roundDiv_le n (Nat.mul_pos hd hg)
  rw [rounded, abs_sub_multiple n hd, abs_sub_multiple n hd]
  exact mul_le_mul_of_nonneg_right (abs_sub_le_of_half hhalf k) (Nat.cast_nonneg _)

/-- A number of a finer grain lies below the least one of this grain, and that not above the
    quotient. -/
theorem rounded_nearer_of_exponent_lt {m : Magnitude} (h : m.exponent < grain n d) :
    |(n : ℚ) / d - rounded n d| < |(n : ℚ) / d - m.units| := by
  have hlt : m.units < 2 ^ (52 : Nat) * 2 ^ grain n d := by
    have hgrain := m.units_add_grain_le
    have hpow : 2 ^ (m.exponent + 1) ≤ 2 ^ grain n d := Nat.pow_le_pow_right Nat.two_pos h
    have hpos := Nat.two_pow_pos m.exponent
    rw [Nat.pow_succ] at hpow
    omega
  have hquotient : ((2 ^ (52 : Nat) * 2 ^ grain n d : Nat) : ℚ) ≤ (n : ℚ) / d := by
    have hle : 2 ^ (52 : Nat) * 2 ^ grain n d ≤ n / d := by
      rw [← Nat.pow_add, Nat.add_comm]
      exact le_quotient (by omega)
    exact le_trans (Nat.cast_le.mpr hle) Nat.cast_div_le
  have hm : (m.units : ℚ) < ((2 ^ (52 : Nat) * 2 ^ grain n d : Nat) : ℚ) := Nat.cast_lt.mpr hlt
  have hmultiple := rounded_nearest_multiple n hd (2 ^ (52 : Nat))
  rw [abs_of_nonneg (sub_nonneg.mpr hquotient)] at hmultiple
  rw [abs_of_pos (sub_pos.mpr (lt_of_lt_of_le hm hquotient))]
  linarith

/-- No number lies nearer. -/
theorem rounded_nearest (m : Magnitude) : |(n : ℚ) / d - rounded n d| ≤ |(n : ℚ) / d - m.units| := by
  rcases Nat.lt_or_ge m.exponent (grain n d) with hlt | hge
  · exact le_of_lt (rounded_nearer_of_exponent_lt n hd hlt)
  · rw [Magnitude.units_eq_mul hge]
    exact rounded_nearest_multiple n hd _

end

/-- What is closer to a number than half the distance to the next one is rounded to it. -/
theorem nearest_of_close (negative : Bool) (n : Nat) {d : Nat} (hd : 0 < d) {m : Magnitude}
    (h : 2 ^ 54 * |(n : ℚ) / d - m.units| < m.units) : nearest negative n d = .finite negative m := by
  refine nearest_of_rounded negative ?_
  by_contra hne
  have hnear := rounded_nearest n hd m
  have hw : (∃ m : Magnitude, m.units = rounded n d) ∨ Magnitude.bound ≤ rounded n d := by
    rcases nearest_cases negative n d with ⟨m', -, hu⟩ | ⟨-, hb⟩
    · exact .inl ⟨m', hu⟩
    · exact .inr hb
  have hapart : (m.units : ℚ) ≤ 2 ^ 53 * |(m.units : ℚ) - rounded n d| := by
    have hle := m.units_le_mul_natAbs_sub hw hne
    have hcast : (((m.units : Int) - rounded n d).natAbs : ℚ) = |(m.units : ℚ) - rounded n d| := by
      rw [Nat.cast_natAbs]
      push_cast
      rfl
    rw [← hcast]
    exact_mod_cast hle
  have htri : |(m.units : ℚ) - rounded n d| ≤ |(n : ℚ) / d - m.units| + |(n : ℚ) / d - rounded n d| := by
    rw [abs_sub_comm ((n : ℚ) / d) m.units]
    exact abs_sub_le _ _ _
  linarith

/-- A number is its own nearest one. -/
theorem nearest_units (negative : Bool) (m : Magnitude) {d : Nat} (hd : 0 < d) :
    nearest negative (m.units * d) d = .finite negative m := by
  have hd' : (d : ℚ) ≠ 0 := by exact_mod_cast Nat.ne_of_gt hd
  have hnear := rounded_nearest (m.units * d) hd m
  rw [Nat.cast_mul, mul_div_cancel_right₀ _ hd', sub_self, abs_zero, abs_nonpos_iff, sub_eq_zero] at hnear
  exact nearest_of_rounded negative (by exact_mod_cast hnear.symm)

end Binary64

end Reckoner
