/-
  Reckoner.Binary64.Rounding — the number nearest to an exact quotient.

  Every operation that rounds has an exact result `n / d` in units of `2 ^ -1074` and rounds
  it here, once, to the nearest multiple of the grain: the spacing of the numbers at that
  size, which is one unit, or more once 53 bits are not enough. A tie goes to the even
  multiple, and what lies past the greatest exponent is infinity.

  - `nearest_scale`: only the quotient counts, not the fraction it is written as.
  - `nearestScaled_eq`: a number of `n * 2 ^ k` units is rounded without writing out its zeros.
-/

import Reckoner.Binary64.Basic

namespace Reckoner

attribute [local instance (2000)] instPowNat

/-- The whole number nearest to `n / d`; of two equally near ones, the even one. -/
def roundDiv (n d : Nat) : Nat :=
  let q := n / d
  let r := n % d
  if 2 * r < d ∨ (2 * r = d ∧ q % 2 = 0) then q else q + 1

theorem div_le_roundDiv (n d : Nat) : n / d ≤ roundDiv n d := by
  unfold roundDiv
  dsimp only
  split <;> omega

theorem roundDiv_le (n d : Nat) : roundDiv n d ≤ n / d + 1 := by
  unfold roundDiv
  dsimp only
  split <;> omega

theorem roundDiv_mul_right (n d : Nat) {c : Nat} (hc : 0 < c) : roundDiv (n * c) (d * c) = roundDiv n d := by
  have h (a b : Nat) : a * c < b * c ↔ a < b := Nat.mul_lt_mul_right hc
  have h' (a b : Nat) : a * c = b * c ↔ a = b := Nat.mul_left_inj (Nat.ne_of_gt hc)
  unfold roundDiv
  simp only [Nat.mul_div_mul_right n d hc, Nat.mul_mod_mul_right, ← Nat.mul_assoc, h, h']

theorem roundDiv_mul_self (n : Nat) {d : Nat} (hd : 0 < d) : roundDiv (n * d) d = n := by
  unfold roundDiv
  simp [Nat.mul_div_cancel n hd, hd]

namespace Binary64

/-- `q * 2 ^ e` units with a sign. A significand rounded up to 54 bits moves to the next
    exponent. -/
def pack (negative : Bool) (q e : Nat) (hq : q ≤ 2 ^ (53 : Nat)) (he : e = 0 ∨ 2 ^ (52 : Nat) ≤ q) : Binary64 :=
  if h : q = 2 ^ (53 : Nat) then
    if h' : e + 1 ≤ 2045 then .finite negative ⟨2 ^ (52 : Nat), e + 1, leastNormal_lt, h', .inr (Nat.le_refl _)⟩
    else .infinite negative
  else if h' : e ≤ 2045 then .finite negative ⟨q, e, Nat.lt_of_le_of_ne hq h, h', he⟩
  else .infinite negative

/-- The grain at `n / d` units is `2 ^ grain n d` units. -/
def grain (n d : Nat) : Nat := (n / d).log2 - 52

theorem quotient_lt (n d : Nat) : n / d < 2 ^ (grain n d + 53) :=
  Nat.lt_of_lt_of_le Nat.lt_log2_self (Nat.pow_le_pow_right (by decide) (by unfold grain; omega))

theorem le_quotient {n d : Nat} (h : grain n d ≠ 0) : 2 ^ (grain n d + 52) ≤ n / d := by
  unfold grain at h ⊢
  rw [Nat.sub_add_cancel (by omega)]
  exact Nat.log2_self_le (by rintro h0; rw [h0] at h; exact h (by decide))

theorem roundDiv_grain_le (n d : Nat) : roundDiv n (d * 2 ^ grain n d) ≤ 2 ^ (53 : Nat) := by
  have h : n / (d * 2 ^ grain n d) < 2 ^ (53 : Nat) := by
    rw [← Nat.div_div_eq_div_mul]
    exact Nat.div_lt_of_lt_mul (by rw [← Nat.pow_add]; exact quotient_lt n d)
  have := roundDiv_le n (d * 2 ^ grain n d)
  omega

theorem le_roundDiv_grain (n d : Nat) : grain n d = 0 ∨ 2 ^ (52 : Nat) ≤ roundDiv n (d * 2 ^ grain n d) := by
  by_cases h : grain n d = 0
  · exact .inl h
  · refine .inr (Nat.le_trans ?_ (div_le_roundDiv _ _))
    rw [← Nat.div_div_eq_div_mul, Nat.le_div_iff_mul_le (Nat.two_pow_pos _), ← Nat.pow_add, Nat.add_comm 52]
    exact le_quotient h

/-- The number nearest to `n / d` units, with a sign. -/
def nearest (negative : Bool) (n d : Nat) : Binary64 :=
  pack negative (roundDiv n (d * 2 ^ grain n d)) (grain n d) (roundDiv_grain_le n d) (le_roundDiv_grain n d)

theorem nearest_scale (negative : Bool) (n d : Nat) {c : Nat} (hc : 0 < c) :
    nearest negative (n * c) (d * c) = nearest negative n d := by
  have hg : grain (n * c) (d * c) = grain n d := by
    unfold grain
    rw [Nat.mul_div_mul_right n d hc]
  unfold nearest
  simp only [hg, Nat.mul_right_comm d c, roundDiv_mul_right n _ hc]

/-! ## Powers of two in front -/

theorem log2_mul_two_pow {n : Nat} (h : n ≠ 0) (k : Nat) : (n * 2 ^ k).log2 = n.log2 + k := by
  rw [Nat.log2_eq_iff (Nat.mul_ne_zero h (Nat.ne_of_gt (Nat.two_pow_pos k)))]
  constructor
  · rw [Nat.pow_add]
    exact Nat.mul_le_mul_right _ (Nat.log2_self_le h)
  · rw [Nat.add_right_comm, Nat.pow_add]
    exact Nat.mul_lt_mul_of_pos_right Nat.lt_log2_self (Nat.two_pow_pos k)

/-- `n * 2 ^ k` rounded at `2 ^ e`, and divided by it. -/
def roundShift (n k e : Nat) : Nat := if e ≤ k then n * 2 ^ (k - e) else roundDiv n (2 ^ (e - k))

theorem roundShift_eq (n k e : Nat) : roundShift n k e = roundDiv (n * 2 ^ k) (1 * 2 ^ e) := by
  unfold roundShift
  rw [Nat.one_mul]
  split
  · rename_i h
    have hk : 2 ^ k = 2 ^ (k - e) * 2 ^ e := by rw [← Nat.pow_add, Nat.sub_add_cancel h]
    rw [hk, ← Nat.mul_assoc, roundDiv_mul_self _ (Nat.two_pow_pos e)]
  · rename_i h
    have he : 2 ^ e = 2 ^ (e - k) * 2 ^ k := by rw [← Nat.pow_add, Nat.sub_add_cancel (by omega)]
    rw [he, roundDiv_mul_right _ _ (Nat.two_pow_pos k)]

theorem grain_mul_two_pow {n : Nat} (h : n ≠ 0) (k : Nat) : grain (n * 2 ^ k) 1 = n.log2 + k - 52 := by
  unfold grain
  rw [Nat.div_one, log2_mul_two_pow h]

/-- The number nearest to `n * 2 ^ k` units, with a sign. -/
def nearestScaled (negative : Bool) (n k : Nat) : Binary64 :=
  if h : n = 0 then .finite negative .zero
  else
    pack negative (roundShift n k (n.log2 + k - 52)) (n.log2 + k - 52)
      (by rw [← grain_mul_two_pow h, roundShift_eq]; exact roundDiv_grain_le _ _)
      (by rw [← grain_mul_two_pow h, roundShift_eq]; exact le_roundDiv_grain _ _)

theorem nearestScaled_eq (negative : Bool) (n k : Nat) :
    nearestScaled negative n k = nearest negative (n * 2 ^ k) 1 := by
  unfold nearestScaled nearest
  by_cases h : n = 0
  · subst h
    simp only [Nat.zero_mul]
    rfl
  · simp only [h, roundShift_eq, grain_mul_two_pow h]
    rfl

end Binary64

end Reckoner
