/-
  Reckoner.Proofs.Powers — whole powers, with the early stop and without.

  A power stops once its product is a zero, infinite or NaN. What is left out then is not nothing:
  such a product keeps its size, but every further factor with a minus sign turns its sign. So a
  power that has stopped early, of a base below zero, has the wrong sign whenever the number of
  factors left out is odd.

  - `multiplied_add_of_settled`: what further factors make of a settled product.
  - `multiply_multiplied`: how far the multiplication goes.
  - `power_up_to_sign`: a power beside the one with nothing left out, for every base and exponent.
-/

import Reckoner.Binary64.Power
import Reckoner.Decimal.Conversion
import Reckoner.Proofs.Nearest

namespace Reckoner.Binary64

/-- `base` multiplied by itself from the left, `count` times over, whatever comes out on the way. -/
def multiplied (base : Binary64) : Nat → Binary64
  | 0 => base
  | count + 1 => (multiplied base count).mul base

/-- The power with nothing left out. -/
def fullPower (base : Binary64) : Nat → Binary64
  | 0 => if base.isZero then zero else one
  | n + 1 => multiplied base n

/-- The number has a minus sign. That of NaN is not told. -/
def hasMinus : Binary64 → Bool
  | nan => false
  | infinite negative => negative
  | finite negative _ => negative

@[simp] theorem isSettled_neg (v : Binary64) : v.neg.isSettled = v.isSettled := by cases v <;> rfl

variable {base : Binary64}

/-! ## Products of one base -/

theorem multiplied_nan (count : Nat) : multiplied nan count = nan := by
  induction count with
  | zero => rfl
  | succ count ih =>
    rw [multiplied, ih]
    rfl

theorem multiplied_infinite (b : Bool) (count : Nat) : ∃ a, multiplied (infinite b) count = infinite a := by
  induction count with
  | zero => exact ⟨b, rfl⟩
  | succ count ih =>
    obtain ⟨a, ha⟩ := ih
    exact ⟨a != b, by rw [multiplied, ha]; rfl⟩

theorem mul_left_zero (a b : Bool) (m : Magnitude) : mul (finite a .zero) (finite b m) = finite (a != b) .zero := by
  have hunits : Magnitude.zero.units * m.units = Magnitude.zero.units * unitsPerOne := by
    rw [Magnitude.units_eq_zero.mpr rfl, Nat.zero_mul, Nat.zero_mul]
  rw [mul_finite, hunits]
  exact nearest_units (a != b) .zero unitsPerOne_pos

theorem multiplied_zero (b : Bool) (count : Nat) : ∃ a, multiplied (finite b .zero) count = finite a .zero := by
  induction count with
  | zero => exact ⟨b, rfl⟩
  | succ count ih =>
    obtain ⟨a, ha⟩ := ih
    exact ⟨a != b, by rw [multiplied, ha, mul_left_zero]⟩

/-- The products of a number that is neither a zero nor infinite have a size. -/
theorem multiplied_ne_nan (b : Bool) {m : Magnitude} (hm : m ≠ .zero) (count : Nat) :
    multiplied (finite b m) count ≠ nan := by
  induction count with
  | zero => exact Binary64.noConfusion
  | succ count ih =>
    rw [multiplied]
    rcases hv : multiplied (finite b m) count with _ | a | ⟨a, n⟩
    · exact absurd hv ih
    · simp [mul, hm]
    · rw [mul_finite]
      rcases nearest_cases (a != b) (n.units * m.units) unitsPerOne with ⟨k, hk, -⟩ | ⟨hk, -⟩ <;> simp [hk]

/-! ## Settled products -/

/-- A further factor turns the sign of a settled product if it has a minus sign itself. -/
theorem multiplied_succ_of_settled {count : Nat} (h : (multiplied base count).isSettled = true) :
    multiplied base (count + 1) =
      if base.hasMinus then (multiplied base count).neg else multiplied base count := by
  rw [multiplied]
  rcases base with _ | b | ⟨b, m⟩
  · rw [multiplied_nan]
    rfl
  · obtain ⟨a, ha⟩ := multiplied_infinite b count
    rw [ha]
    cases a <;> cases b <;> rfl
  by_cases hm : m = .zero
  · subst hm
    obtain ⟨a, ha⟩ := multiplied_zero b count
    rw [ha, mul_left_zero]
    cases a <;> cases b <;> rfl
  rcases hv : multiplied (finite b m) count with _ | a | ⟨a, n⟩
  · exact absurd hv (multiplied_ne_nan b hm count)
  · have hmul : mul (infinite a) (finite b m) = infinite (a != b) := if_neg hm
    rw [hmul]
    cases a <;> cases b <;> rfl
  · obtain rfl : n = .zero := by
      rw [hv] at h
      simpa [isSettled, isZero, isFinite] using h
    rw [mul_left_zero]
    cases a <;> cases b <;> rfl

/-- So only the number of further factors counts, and only if it is odd. -/
theorem multiplied_add_of_settled {count : Nat} (h : (multiplied base count).isSettled = true) (more : Nat) :
    (multiplied base (count + more)).isSettled = true ∧
      multiplied base (count + more) =
        if base.hasMinus = true ∧ more % 2 = 1 then (multiplied base count).neg else multiplied base count := by
  induction more with
  | zero => exact ⟨h, by simp⟩
  | succ more ih =>
    obtain ⟨hsettled, hv⟩ := ih
    have hnext := multiplied_succ_of_settled hsettled
    rw [Nat.add_assoc] at hnext
    constructor
    · rw [hnext]
      split <;> simp [hsettled]
    · rw [hnext, hv]
      by_cases hb : base.hasMinus = true
      · rcases Nat.mod_two_eq_zero_or_one more with he | ho
        · have hodd : (more + 1) % 2 = 1 := by omega
          simp [hb, he, hodd]
        · have heven : (more + 1) % 2 ≠ 1 := by omega
          simp [hb, ho, heven, neg_neg]
      · simp [hb]

/-- The multiplication goes on to the first product that is settled, or to the end. -/
theorem multiply_multiplied (base : Binary64) (done count : Nat) :
    ∃ more ≤ count, multiply base (multiplied base done) count = multiplied base (done + more) ∧
      (more < count → (multiplied base (done + more)).isSettled = true) ∧
        ∀ i < more, (multiplied base (done + i)).isSettled = false := by
  induction count generalizing done with
  | zero => exact ⟨0, Nat.le_refl 0, rfl, fun h => absurd h (Nat.lt_irrefl 0), fun i h => absurd h (Nat.not_lt_zero i)⟩
  | succ count ih =>
    by_cases hs : (multiplied base done).isSettled = true
    · refine ⟨0, Nat.zero_le _, ?_, fun _ => hs, fun i h => absurd h (Nat.not_lt_zero i)⟩
      rw [multiply, if_pos hs]
      rfl
    · obtain ⟨more, hle, heq, hstop, hbefore⟩ := ih (done + 1)
      have hshift (i : Nat) : done + 1 + i = done + (i + 1) := by omega
      rw [hshift] at heq hstop
      refine ⟨more + 1, Nat.succ_le_succ hle, ?_, fun h => hstop (Nat.lt_of_succ_lt_succ h), ?_⟩
      · rw [multiply, if_neg hs, ← heq]
        rfl
      · intro i hi
        cases i with
        | zero => simpa using hs
        | succ i =>
          rw [← hshift]
          exact hbefore i (Nat.lt_of_succ_lt_succ hi)

/-! ## Powers -/

/-- A power is the product of its first `k` factors, of which no fewer than `k` give a settled one;
    it leaves out others only if `k` of them do. What they would have made of it is told by the sign
    of the base: nothing, or, if the base has a minus sign and their number is odd, the opposite. -/
theorem power_up_to_sign (base : Binary64) (n : Nat) :
    ∃ k ≤ n, base.power n = base.fullPower k ∧ (k < n → (base.fullPower k).isSettled = true) ∧
      (∀ i < k, 0 < i → (base.fullPower i).isSettled = false) ∧
        base.fullPower n =
          if base.hasMinus = true ∧ (n - k) % 2 = 1 then (base.power n).neg else base.power n := by
  cases n with
  | zero =>
    refine ⟨0, Nat.le_refl 0, rfl, fun h => absurd h (Nat.lt_irrefl 0), fun i h => absurd h (Nat.not_lt_zero i), ?_⟩
    simp [power, fullPower]
  | succ n =>
    obtain ⟨more, hle, heq, hstop, hbefore⟩ := multiply_multiplied base 0 n
    simp only [Nat.zero_add] at heq hstop hbefore
    have hpower : base.power (n + 1) = multiplied base more := heq
    refine ⟨more + 1, Nat.succ_le_succ hle, hpower, fun h => hstop (Nat.lt_of_succ_lt_succ h), ?_, ?_⟩
    · intro i hi hpos
      obtain ⟨j, rfl⟩ := Nat.exists_eq_succ_of_ne_zero (Nat.ne_of_gt hpos)
      exact hbefore j (Nat.lt_of_succ_lt_succ hi)
    · rw [hpower, Nat.succ_sub_succ]
      show multiplied base n = _
      by_cases hn : more = n
      · simp [hn]
      · have hsettled := hstop (Nat.lt_of_le_of_ne hle hn)
        have hrest := (multiplied_add_of_settled hsettled (n - more)).2
        rwa [Nat.add_sub_cancel' hle] at hrest

/-- Minus ten to the power of 310 is past every number and not below zero. It has stopped at the
    factor before the last. -/
theorem an_even_power_below_zero :
    let base := (⟨10, 0⟩ : Decimal).toBinary64.neg
    base.power 310 = .infinite true ∧ base.fullPower 310 = .infinite false := by
  decide +kernel

end Reckoner.Binary64
