/-
  Reckoner.Proofs.Remainders — remainders are exact.

  The divisor is taken away as often as the whole part of the quotient says, and that may have far
  more digits than any number holds. What is left is a whole number of the divisor's grains, fewer
  than make up the divisor, and so a number of the calculator: nothing is rounded.

  - `Magnitude.exists_remainder`: what is left of the units is a number.
  - `truncated_div`: the whole part of a quotient, in units.
  - `remainder_exact`: the remainder of any two numbers.
-/

import Mathlib.Data.Rat.Floor
import Reckoner.Operation
import Reckoner.Proofs.Powers

namespace Reckoner

attribute [local instance (2000)] instPowNat

/-! ## Units -/

namespace Magnitude

/-- What is left of a magnitude, taking away another one as often as it fits, is one itself. -/
theorem exists_remainder (m : Magnitude) {n : Magnitude} (hn : n ≠ .zero) :
    ∃ r : Magnitude, r.units = m.units % n.units := by
  rcases Nat.lt_or_ge m.exponent n.exponent with hlt | hge
  · exact ⟨m, (Nat.mod_eq_of_lt (units_lt_of_exponent_lt hlt)).symm⟩
  · have hsignificand : 0 < n.significand := by
      apply Nat.pos_of_ne_zero
      intro h
      exact hn (units_eq_zero.mp (by rw [units, h, Nat.zero_mul]))
    have hlt : m.significand * 2 ^ (m.exponent - n.exponent) % n.significand < 2 ^ (53 : Nat) :=
      Nat.lt_trans (Nat.mod_lt _ hsignificand) n.significand_lt
    obtain ⟨r, hr⟩ := exists_units_of_lt hlt n.exponent_le
    refine ⟨r, ?_⟩
    rw [hr, units_eq_mul hge, units, Nat.mul_mod_mul_right]

theorem value_remainder {m n r : Magnitude} (h : r.units = m.units % n.units) :
    r.value = m.value - n.value * ((m.units / n.units : Nat) : ℚ) := by
  have hunits : (m.units : ℚ) = n.units * (m.units / n.units : Nat) + r.units := by
    rw [h]
    exact_mod_cast (Nat.div_add_mod m.units n.units).symm
  unfold value
  rw [hunits]
  ring

end Magnitude

/-! ## Whole parts -/

/-- The whole number next to `x` on the side of zero. -/
def truncated (x : ℚ) : Int := if 0 ≤ x then ⌊x⌋ else ⌈x⌉

theorem truncated_neg (x : ℚ) : truncated (-x) = -truncated x := by
  unfold truncated
  rcases lt_trichotomy x 0 with h | rfl | h
  · rw [if_pos (by linarith), if_neg (not_le.mpr h), Int.floor_neg]
  · simp
  · rw [if_neg (by linarith), if_pos (le_of_lt h), Int.ceil_neg]

theorem truncated_div (m n : Magnitude) : truncated (m.value / n.value) = ((m.units / n.units : Nat) : Int) := by
  have hone : (unitsPerOne : ℚ) ≠ 0 := Nat.cast_ne_zero.mpr (Nat.ne_of_gt unitsPerOne_pos)
  have hquotient : m.value / n.value = (m.units : ℚ) / n.units := div_div_div_cancel_right₀ hone _ _
  rw [truncated, if_pos (div_nonneg m.value_nonneg n.value_nonneg), hquotient, Rat.floor_natCast_div_natCast]
  rfl

/-! ## Remainders -/

namespace Binary64

/-- The number exactly, unless it is infinite or NaN. -/
def rational? : Binary64 → Option ℚ
  | finite negative m => some (if negative then -m.value else m.value)
  | _ => none

theorem remainder_finite (a b : Bool) (m : Magnitude) {n : Magnitude} (hn : n ≠ .zero) :
    ∃ r : Magnitude, (finite a m).remainder (finite b n) = .ok (finite a r) ∧ r.units = m.units % n.units := by
  obtain ⟨r, hr⟩ := m.exists_remainder hn
  refine ⟨r, ?_, hr⟩
  have hzero : (finite b n).isZero = false := beq_eq_false_iff_ne.mpr hn
  -- the remainder in units is rounded, and that is the number itself
  have hself := nearest_units a r Nat.one_pos
  rw [Nat.mul_one, hr] at hself
  rw [remainder, hzero, rem, if_neg hn, hself]
  rfl

theorem remainder_eq_error (v w : Binary64) :
    v.remainder w = .error .divisionByZero ↔ w = finite false .zero ∨ w = finite true .zero := by
  unfold remainder
  cases w with
  | nan => simp [isZero]
  | infinite b => simp [isZero]
  | finite b n =>
    by_cases hn : n = .zero
    · cases b <;> simp [isZero, hn]
    · cases b <;> simp [isZero, hn]

variable {v w : Binary64}

/-- The exact remainder of a quotient in magnitudes. Neither sign has a part in its size. -/
theorem sub_mul_truncated (a b : Bool) {m n r : Magnitude} (hr : r.units = m.units % n.units) :
    let x := if a then -m.value else m.value
    let y := if b then -n.value else n.value
    (if a then -r.value else r.value) = x - y * truncated (x / y) := by
  have hvalue := Magnitude.value_remainder hr
  have hwhole := truncated_div m n
  cases a <;> cases b <;>
    simp only [if_true, Bool.false_eq_true, if_false, neg_div, div_neg, truncated_neg, hwhole, hvalue, Int.cast_neg,
      Int.cast_natCast] <;>
    ring

/-- The remainder of two finite numbers is what is left of the dividend without the divisor as often
    as the whole part of the quotient says: exactly, smaller than the divisor, no greater than the
    dividend, and with the dividend's sign, zero included. A divisor is refused only if it is zero.
    An infinite one leaves a finite number as it is, and every other remainder is NaN. -/
theorem remainder_exact (v w : Binary64) :
    (v.remainder w = .error .divisionByZero ↔ w = finite false .zero ∨ w = finite true .zero) ∧
    (∀ x y, v.rational? = some x → w.rational? = some y → y ≠ 0 →
      ∃ r z, v.remainder w = .ok r ∧ r.rational? = some z ∧ z = x - y * truncated (x / y) ∧ |z| < |y| ∧ |z| ≤ |x| ∧
        r.hasMinus = v.hasMinus) ∧
    (∀ b, v.isFinite = true → w = infinite b → v.remainder w = .ok v) ∧
    (v.isFinite = false ∨ w = nan → w.isZero = false → v.remainder w = .ok nan) := by
  refine ⟨remainder_eq_error v w, ?_, ?_, ?_⟩
  · intro x y hx hy hne
    cases v with
    | nan => cases hx
    | infinite a => cases hx
    | finite a m =>
    cases w with
    | nan => cases hy
    | infinite b => cases hy
    | finite b n =>
      obtain rfl := Option.some.inj hx
      obtain rfl := Option.some.inj hy
      have hn : n ≠ .zero := by
        rintro rfl
        apply hne
        cases b <;> simp only [if_true, Bool.false_eq_true, if_false, Magnitude.value_zero, neg_zero]
      obtain ⟨r, hok, hr⟩ := remainder_finite a b m hn
      have hpos : 0 < n.units := Nat.pos_of_ne_zero fun h => hn (Magnitude.units_eq_zero.mp h)
      have habs (c : Bool) (k : Magnitude) : |if c then -k.value else k.value| = k.value := by
        cases c <;> simp [abs_of_nonneg k.value_nonneg]
      refine ⟨_, _, hok, rfl, sub_mul_truncated a b hr, ?_, ?_, rfl⟩
      · rw [habs, habs, Magnitude.value_lt_value, hr]
        exact Nat.mod_lt _ hpos
      · rw [habs, habs, Magnitude.value_le_value, hr]
        exact Nat.mod_le _ _
  · rintro b hv rfl
    cases v with
    | nan => cases hv
    | infinite a => cases hv
    | finite a m => rfl
  · intro h hw
    have hrem : v.rem w = nan := by
      rcases h with hv | rfl
      · cases v with
        | nan => rfl
        | infinite a => cases w <;> rfl
        | finite a m => cases hv
      · cases v <;> rfl
    rw [remainder, hw, hrem]
    rfl

/-- The greatest number, below zero, by three units: the quotient has more than two thousand bits. -/
theorem remainder_of_the_greatest :
    let greatest := ofBits 0xffefffffffffffff
    (∃ x y z, greatest.rational? = some x ∧ (ofBits 3).rational? = some y ∧ y ≠ 0 ∧
      greatest.remainder (ofBits 3) = .ok (ofBits 0x8000000000000002) ∧
      (ofBits 0x8000000000000002).rational? = some z ∧ z = x - y * truncated (x / y) ∧ |z| < |y| ∧ |z| ≤ |x|) ∧
    greatest.remainder (infinite false) = .ok greatest ∧
    greatest.remainder nan = .ok nan ∧ (infinite true).remainder greatest = .ok nan := by
  intro greatest
  obtain ⟨-, hfinite, -, -⟩ := remainder_exact greatest (ofBits 3)
  have hne : (⟨3, 0, by decide, by decide, .inl rfl⟩ : Magnitude).value ≠ 0 :=
    div_ne_zero (by decide) (Nat.cast_ne_zero.mpr (Nat.ne_of_gt unitsPerOne_pos))
  obtain ⟨r, z, hok, hz, hrest, hlt, hle, -⟩ := hfinite _ _ rfl rfl hne
  have hr : greatest.remainder (ofBits 3) = .ok (ofBits 0x8000000000000002) := by decide +kernel
  obtain rfl : ofBits 0x8000000000000002 = r := Except.ok.inj (hr.symm.trans hok)
  refine ⟨⟨_, _, z, rfl, rfl, hne, hr, hz, hrest, hlt, hle⟩, ?_, ?_, ?_⟩
  · exact (remainder_exact greatest (infinite false)).2.2.1 false rfl rfl
  · exact (remainder_exact greatest nan).2.2.2 (.inr rfl) rfl
  · exact (remainder_exact (infinite true) greatest).2.2.2 (.inl rfl) (by decide)

end Binary64

end Reckoner
