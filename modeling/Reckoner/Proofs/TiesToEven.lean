/-
  Reckoner.Proofs.TiesToEven — rounding by its outcome alone.

  What a rational is rounded to can be told without grains: no number lies nearer, and if another
  one lies as near, the outcome is even. Up to half a unit that is zero; from halfway between the
  greatest number and the one that would follow it the outcome is infinite, and before it is not.

  - `IsNearest.unique`: there is one such number at most.
  - `even_of_tie`: of two numbers equally near the even one is taken.
  - `bound_le_rounded`: what is rounded past every number.
  - `nearest_rounds`: the number nearest to a rational.
-/

import Mathlib.Algebra.Order.Field.Power
import Reckoner.Proofs.Shortest
import Reckoner.Proofs.Significant

namespace Reckoner

attribute [local instance (2000)] instPowNat

namespace Magnitude

/-- No number lies nearer to `x`, and if another one lies as near, this one is even. -/
structure IsNearest (x : ℚ) (m : Magnitude) : Prop where
  nearest : ∀ n : Magnitude, |x - m.value| ≤ |x - n.value|
  even : ∀ n : Magnitude, n ≠ m → |x - n.value| = |x - m.value| → m.significand % 2 = 0

/-- Between two numbers equally near there is a third one, or one of them is odd. -/
theorem IsNearest.not_lt {x : ℚ} {m k : Magnitude} (hm : m.IsNearest x) (hk : k.IsNearest x) : ¬ m.units < k.units := by
  intro hlt
  have hne : k ≠ m := by
    rintro rfl
    exact Nat.lt_irrefl _ hlt
  have htie := le_antisymm (hk.nearest m) (hm.nearest k)
  have heven := hm.even k hne htie
  have heven' := hk.even m hne.symm htie.symm
  have hsignificand := m.significand_lt
  -- the next number, which is odd
  let next : Magnitude := ⟨m.significand + 1, m.exponent, by omega, m.exponent_le, m.normal.imp_right Nat.le_succ_of_le⟩
  have hnext : m.units < next.units := Nat.mul_lt_mul_of_pos_right (Nat.lt_succ_self _) (Nat.two_pow_pos _)
  have hle : next.units ≤ k.units := by
    rcases Nat.lt_or_ge k.exponent m.exponent with h | h
    · exact absurd (units_lt_of_exponent_lt h) (Nat.lt_asymm hlt)
    · rw [units_eq_mul h] at hlt ⊢
      exact Nat.mul_le_mul_right _ (Nat.lt_of_mul_lt_mul_right hlt)
  have hbetween : next.units < k.units := by
    refine Nat.lt_of_le_of_ne hle fun h => ?_
    rw [← units_injective h] at heven'
    show False
    have hodd : next.significand = m.significand + 1 := rfl
    omega
  have hlow := value_lt_value.mpr hnext
  have hhigh := value_lt_value.mpr hbetween
  have hmiddle : 2 * x = m.value + k.value := by
    rcases abs_eq_abs.mp htie with h | h <;> linarith
  have hnearer : |x - next.value| < x - m.value := abs_lt.mpr ⟨by linarith, by linarith⟩
  have hnear := hm.nearest next
  have habs := le_abs_self (x - m.value)
  linarith

/-- There is one nearest number at most. -/
theorem IsNearest.unique {x : ℚ} {m k : Magnitude} (hm : m.IsNearest x) (hk : k.IsNearest x) : m = k :=
  units_injective (Nat.le_antisymm (Nat.le_of_not_lt (hk.not_lt hm)) (Nat.le_of_not_lt (hm.not_lt hk)))

/-! ## Even numbers -/

/-- The significand is even if the multiple of a grain is that it is made from. -/
theorem significand_even {m : Magnitude} {q e : Nat} (h : m.units = q * 2 ^ e) (hq : q ≤ 2 ^ (53 : Nat))
    (he : e = 0 ∨ 2 ^ (52 : Nat) ≤ q) (heven : q % 2 = 0) : m.significand % 2 = 0 := by
  rcases Nat.lt_trichotomy m.exponent e with hlt | heq | hgt
  · -- a smaller exponent would not do for so great a multiple
    exfalso
    have hle := Nat.mul_le_mul_right (2 ^ e) (he.resolve_left (by omega))
    have hgrain := m.units_add_grain_le
    have hpow : 2 ^ (m.exponent + 1) ≤ 2 ^ e := Nat.pow_le_pow_right Nat.two_pos hlt
    have hpos := Nat.two_pow_pos m.exponent
    rw [Nat.pow_succ] at hpow
    omega
  · rw [units, heq] at h
    rwa [Nat.eq_of_mul_eq_mul_right (Nat.two_pow_pos e) h]
  · -- a greater one is that of the least significand
    rw [units_eq_mul (Nat.le_of_lt hgt)] at h
    have hmultiple := Nat.eq_of_mul_eq_mul_right (Nat.two_pow_pos e) h
    have hnormal : 2 ^ (52 : Nat) ≤ m.significand := m.normal.resolve_left (by omega)
    have htwo : 2 ≤ 2 ^ (m.exponent - e) := Nat.le_self_pow (by omega) 2
    have hdouble := Nat.mul_le_mul_left m.significand htwo
    omega

/-! ## The greatest number -/

def greatest : Magnitude := ⟨2 ^ (53 : Nat) - 1, 2045, by decide, Nat.le_refl _, .inr (by decide)⟩

/-- The bound is the next multiple of its grain. -/
theorem units_greatest : greatest.units + 2 ^ greatest.exponent = bound := by
  unfold units greatest bound
  dsimp only
  generalize 2045 = last
  rw [← Nat.succ_mul]

theorem bound_eq : bound = 2 ^ (53 : Nat) * 2 ^ greatest.exponent := by
  unfold bound greatest
  dsimp only

theorem units_le_greatest (m : Magnitude) : m.units ≤ greatest.units := by
  rcases Nat.lt_or_eq_of_le (show m.exponent ≤ greatest.exponent from m.exponent_le) with hlt | heq
  · exact Nat.le_of_lt (units_lt_of_exponent_lt hlt)
  · have hbound := m.units_add_grain_le_bound
    rw [heq, ← units_greatest] at hbound
    omega

end Magnitude

namespace Binary64

open Magnitude

section

variable {n d : Nat} (hd : 0 < d)
include hd

/-! ## Ties -/

/-- A quotient halfway between two multiples of its grain is moved to the even one. -/
theorem roundDiv_even (h : 2 * |(n : ℚ) / d - rounded n d| = (2 ^ grain n d : Nat)) :
    roundDiv n (d * 2 ^ grain n d) % 2 = 0 := by
  have hg : 0 < 2 ^ grain n d := Nat.two_pow_pos _
  obtain ⟨q, hq, -, heven⟩ := halfEven_roundDiv n (Nat.mul_pos hd hg)
  obtain rfl : roundDiv n (d * 2 ^ grain n d) = q := by exact_mod_cast hq.trans (mul_one _)
  apply heven
  have hg' : ((2 ^ grain n d : Nat) : ℚ) ≠ 0 := Nat.cast_ne_zero.mpr (Nat.ne_of_gt hg)
  rw [rounded, abs_sub_multiple n hd, ← mul_assoc] at h
  rw [div_one]
  exact mul_right_cancel₀ hg' (h.trans (one_mul _).symm)

/-- Of two numbers equally near the even one is taken. -/
theorem even_of_tie {m k : Magnitude} (hm : m.units = rounded n d) (hne : k ≠ m)
    (h : |(n : ℚ) / d - k.units| = |(n : ℚ) / d - m.units|) : m.significand % 2 = 0 := by
  refine significand_even hm (roundDiv_grain_le n d) (le_roundDiv_grain n d) (roundDiv_even hd ?_)
  rw [hm] at h
  rcases Nat.lt_or_ge k.exponent (grain n d) with hlt | hge
  · exact absurd h (ne_of_gt (rounded_nearer_of_exponent_lt n hd hlt))
  · -- both are multiples of the grain, a grain apart at least, and neither is more than half away
    have hhalf := abs_sub_rounded_le n hd
    have hmultiple := units_eq_mul hge
    have hapart : ((2 ^ grain n d : Nat) : ℚ) ≤ |(k.units : ℚ) - rounded n d| := by
      have hunits : k.units ≠ rounded n d := fun he => hne (units_injective (he.trans hm.symm))
      rw [hmultiple, rounded] at hunits ⊢
      generalize k.significand * 2 ^ (k.exponent - grain n d) = i at hunits
      generalize roundDiv n (d * 2 ^ grain n d) = j at hunits
      generalize 2 ^ grain n d = g at hunits
      have hij : i ≠ j := fun he => hunits (by rw [he])
      have hone : (1 : ℚ) ≤ |(i : ℚ) - j| := by
        have hz : (1 : Int) ≤ |(i : Int) - j| := Int.one_le_abs (by omega)
        exact_mod_cast hz
      rw [Nat.cast_mul, Nat.cast_mul, ← sub_mul, abs_mul, Nat.abs_cast]
      exact le_mul_of_one_le_left (Nat.cast_nonneg _) hone
    have htriangle : |(k.units : ℚ) - rounded n d| ≤ |(n : ℚ) / d - k.units| + |(n : ℚ) / d - rounded n d| := by
      rw [abs_sub_comm ((n : ℚ) / d) k.units]
      exact abs_sub_le _ _ _
    linarith

/-! ## Past every number -/

/-- The outcome is past every number from halfway between the greatest one and the bound. -/
theorem bound_le_rounded : bound ≤ rounded n d ↔ ((greatest.units + bound : Nat) : ℚ) ≤ 2 * (n / d) := by
  have hstep : 0 < 2 ^ greatest.exponent := Nat.two_pow_pos _
  have hbound : (greatest.units : ℚ) + (2 ^ greatest.exponent : Nat) = bound := by
    rw [← Nat.cast_add, units_greatest]
  have hstep' : (0 : ℚ) < (2 ^ greatest.exponent : Nat) := Nat.cast_pos.mpr hstep
  rw [Nat.cast_add]
  constructor
  · intro h
    have hnear := rounded_nearest n hd greatest
    have hrounded : (bound : ℚ) ≤ rounded n d := Nat.cast_le.mpr h
    have hdistance := neg_abs_le ((n : ℚ) / d - rounded n d)
    rcases abs_cases ((n : ℚ) / d - greatest.units) with ⟨he, -⟩ | ⟨he, -⟩
    · linarith
    · linarith
  · intro h
    rcases nearest_cases false n d with ⟨m, -, hm⟩ | ⟨-, hb⟩
    · exfalso
      have hgrain : grain n d ≤ greatest.exponent := by
        by_contra hgt
        have hle := bound_le ((le_roundDiv_grain n d).resolve_left (by omega)) (Nat.lt_of_not_le hgt)
        have hlt := m.units_lt_bound
        rw [hm, rounded] at hlt
        omega
      have hle : (rounded n d : ℚ) ≤ greatest.units := by
        rw [← hm]
        exact Nat.cast_le.mpr m.units_le_greatest
      -- the bound is a multiple of the grain as well, so that only the tie is left
      have hnear := rounded_nearest_multiple n hd (2 ^ (53 : Nat) * 2 ^ (greatest.exponent - grain n d))
      rw [Nat.mul_assoc, ← Nat.pow_add, Nat.sub_add_cancel hgrain, ← bound_eq] at hnear
      have hhalf := abs_sub_rounded_le n hd
      have hpos : 0 < (n : ℚ) / d - rounded n d := by linarith
      rw [abs_of_pos hpos] at hnear hhalf
      have htie : (rounded n d : ℚ) = greatest.units ∧
          2 * ((n : ℚ) / d - rounded n d) = (2 ^ greatest.exponent : Nat) := by
        rcases abs_cases ((n : ℚ) / d - bound) with ⟨he, -⟩ | ⟨he, -⟩
        · linarith
        · constructor <;> linarith
      obtain ⟨hrounded, htie⟩ := htie
      have hexponent : grain n d = greatest.exponent := by
        rw [htie, Nat.cast_le, Nat.pow_le_pow_iff_right (by decide)] at hhalf
        omega
      have heven := roundDiv_even hd (by rw [abs_of_pos hpos, htie, hexponent])
      have hodd : roundDiv n (d * 2 ^ grain n d) = greatest.significand := by
        rw [rounded, units, hexponent, Nat.cast_inj] at hrounded
        rw [hexponent]
        exact Nat.eq_of_mul_eq_mul_right hstep hrounded
      rw [hodd] at heven
      exact absurd heven (by decide)
    · exact hb

/-! ## Outcomes -/

theorem nearest_eq_zero (negative : Bool) :
    nearest negative n d = .finite negative .zero ↔ 2 * ((n : ℚ) / d) ≤ 1 := by
  have hd' : (0 : ℚ) < d := Nat.cast_pos.mpr hd
  constructor
  · intro h
    rcases nearest_cases negative n d with ⟨m, hm, hunits⟩ | ⟨hinfinite, -⟩
    · obtain rfl : m = .zero := (finite.inj (hm.symm.trans h)).2
      have hzero : rounded n d = 0 := hunits.symm.trans (units_eq_zero.mpr rfl)
      have hmultiple : roundDiv n (d * 2 ^ grain n d) = 0 :=
        (Nat.mul_eq_zero.mp hzero).resolve_right (Nat.ne_of_gt (Nat.two_pow_pos _))
      have hgrain : grain n d = 0 := by
        rcases le_roundDiv_grain n d with hg | hle
        · exact hg
        · omega
      have hhalf := abs_sub_rounded_le n hd
      have habs := le_abs_self ((n : ℚ) / d - rounded n d)
      rw [hzero, hgrain] at hhalf
      rw [hzero] at habs
      norm_num at hhalf habs
      linarith
    · rw [hinfinite] at h
      cases h
  · intro h
    rw [← mul_div_assoc, div_le_one hd'] at h
    exact nearest_of_tiny negative hd (by exact_mod_cast h)

theorem nearest_eq_infinite (negative : Bool) :
    nearest negative n d = .infinite negative ↔ ((greatest.units + bound : Nat) : ℚ) ≤ 2 * (n / d) := by
  rw [← bound_le_rounded hd]
  rcases nearest_cases negative n d with ⟨m, hm, hunits⟩ | ⟨hinfinite, hb⟩
  · have hlt := m.units_lt_bound
    rw [hm]
    exact iff_of_false (by simp) (by omega)
  · exact iff_of_true hinfinite hb

variable {x : ℚ} (hx : x * unitsPerOne = (n : ℚ) / d)
include hx

omit hd in
theorem abs_sub_value (k : Magnitude) : |x - k.value| * unitsPerOne = |(n : ℚ) / d - k.units| := by
  have hone : (0 : ℚ) < unitsPerOne := Nat.cast_pos.mpr unitsPerOne_pos
  rw [← hx, ← abs_of_pos hone, ← abs_mul, abs_of_pos hone, sub_mul, value, div_mul_cancel₀ _ (ne_of_gt hone)]

/-- A finite outcome is the nearest number, and of two equally near the even one. -/
theorem isNearest_of_nearest {negative : Bool} {m : Magnitude} (h : nearest negative n d = .finite negative m) :
    m.IsNearest x := by
  have hone : (0 : ℚ) < unitsPerOne := Nat.cast_pos.mpr unitsPerOne_pos
  have hunits : m.units = rounded n d := by
    rcases nearest_cases negative n d with ⟨m', hm, hunits⟩ | ⟨hinfinite, -⟩
    · rw [← (finite.inj (hm.symm.trans h)).2, hunits]
    · rw [hinfinite] at h
      cases h
  constructor
  · intro k
    apply le_of_mul_le_mul_right _ hone
    rw [abs_sub_value hx, abs_sub_value hx, hunits]
    exact rounded_nearest n hd k
  · intro k hne htie
    apply even_of_tie hd hunits hne
    rw [← abs_sub_value hx, ← abs_sub_value hx, htie]

end

/-! ## The thresholds -/

theorem cast_two_pow (k : Nat) : ((2 ^ k : Nat) : ℚ) = 2 ^ (k : Int) := by
  rw [zpow_natCast, Nat.cast_pow, Nat.cast_ofNat]

theorem two_zpow_mul (a b : Int) : (2 : ℚ) ^ a * 2 ^ b = 2 ^ (a + b) := (zpow_add₀ two_ne_zero a b).symm

theorem cast_unitsPerOne : (unitsPerOne : ℚ) = 2 ^ (1074 : Int) := by
  show (unitsPerOne : ℚ) = 2 ^ ((1074 : Nat) : Int)
  unfold unitsPerOne
  generalize 1074 = one
  exact cast_two_pow one

/-- A finite outcome is close to what is rounded, if that is not too small. -/
theorem mul_abs_sub_value_le {negative : Bool} {x : ℚ} {n d : Nat} (hd : 0 < d) (hx : x * unitsPerOne = (n : ℚ) / d)
    {m : Magnitude} (hm : nearest negative n d = .finite negative m) {j : Nat} (hj : j ≤ 52)
    (h : 2 ^ ((j : Int) - 1074) ≤ x) : 2 ^ (j + 1) * |x - m.value| ≤ x := by
  have hone : (0 : ℚ) < unitsPerOne := Nat.cast_pos.mpr unitsPerOne_pos
  have hlarge : (2 : ℚ) ^ j ≤ (n : ℚ) / d := by
    have hle := mul_le_mul_of_nonneg_right h (le_of_lt hone)
    rwa [hx, cast_unitsPerOne, two_zpow_mul, sub_add_cancel, zpow_natCast] at hle
  have hmoved := mul_abs_sub_rounded_le n hd hj hlarge
  rw [← units_of_nearest hm, ← abs_sub_value hx, ← hx, ← mul_assoc] at hmoved
  exact le_of_mul_le_mul_right hmoved hone

/-- Half a unit. -/
theorem half_unit : 2 * ((2 : ℚ) ^ (-1075 : Int) * unitsPerOne) = 1 := by
  have hhalf : (2 : ℚ) ^ (-1075 + 1074 : Int) = 1 / 2 := by norm_num
  rw [cast_unitsPerOne, two_zpow_mul, hhalf]
  norm_num

/-- Halfway between the greatest number and the bound. -/
theorem last_half :
    2 * (((2 : ℚ) ^ (1024 : Int) - 2 ^ (970 : Int)) * unitsPerOne) = (greatest.units + bound : Nat) := by
  have hbound : (bound : ℚ) = 2 ^ (1024 + 1074 : Int) := by
    rw [bound_eq, Nat.cast_mul, cast_two_pow, cast_two_pow, two_zpow_mul]
    rfl
  have hstep : ((2 ^ greatest.exponent : Nat) : ℚ) = 2 * 2 ^ (970 + 1074 : Int) := by
    rw [cast_two_pow, ← zpow_one_add₀ two_ne_zero]
    rfl
  have hgreatest : (greatest.units : ℚ) + (2 ^ greatest.exponent : Nat) = bound := by
    rw [← Nat.cast_add, units_greatest]
  rw [cast_unitsPerOne, sub_mul, two_zpow_mul, two_zpow_mul, Nat.cast_add]
  rw [hbound, hstep] at hgreatest
  rw [hbound]
  generalize (2 : ℚ) ^ (1024 + 1074 : Int) = past at *
  generalize (2 : ℚ) ^ (970 + 1074 : Int) = half at *
  linarith

/-- The number nearest to a rational: zero up to half a unit, infinite from halfway between the
    greatest number and the one that would follow, and otherwise finite and nearest, ties to even. -/
theorem nearest_rounds (negative : Bool) {x : ℚ} {n d : Nat} (hd : 0 < d) (hx : x * unitsPerOne = (n : ℚ) / d) :
    (nearest negative n d = .finite negative .zero ↔ x ≤ 2 ^ (-1075 : Int)) ∧
    (nearest negative n d = .infinite negative ↔ 2 ^ (1024 : Int) - 2 ^ (970 : Int) ≤ x) ∧
    (x < 2 ^ (1024 : Int) - 2 ^ (970 : Int) → ∃ m, nearest negative n d = .finite negative m ∧ m.IsNearest x) := by
  have hone : (0 : ℚ) < unitsPerOne := Nat.cast_pos.mpr unitsPerOne_pos
  have hinfinite : nearest negative n d = .infinite negative ↔ 2 ^ (1024 : Int) - 2 ^ (970 : Int) ≤ x := by
    rw [nearest_eq_infinite hd, ← last_half, ← hx, mul_le_mul_iff_right₀ two_pos, mul_le_mul_iff_left₀ hone]
  refine ⟨?_, hinfinite, ?_⟩
  · rw [nearest_eq_zero hd, ← hx, ← half_unit, mul_le_mul_iff_right₀ two_pos, mul_le_mul_iff_left₀ hone]
  · intro hlt
    rcases nearest_cases negative n d with ⟨m, hm, -⟩ | ⟨h, -⟩
    · exact ⟨m, hm, isNearest_of_nearest hd hx hm⟩
    · exact absurd hlt (not_lt.mpr (hinfinite.mp h))

end Binary64

end Reckoner
