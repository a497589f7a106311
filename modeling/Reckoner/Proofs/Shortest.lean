/-
  Reckoner.Proofs.Shortest — the shortest digits read back as the number they were made from.

  A decimal is read by its value alone: the two cases that are told by size give what rounding the
  quotient in full would give, and rounding only sees the quotient. So the zeros that trimming
  drops change nothing, and whichever grid the search for the shortest digits stops at, what it
  stops with is read as the number.

  - `toBinary64_eq`: every decimal is rounded as one quotient of whole numbers.
  - `toBinary64_congr`: decimals of one value are read as one number.
  - `toBinary64_shortest`: the shortest digits of a magnitude are read as it.
-/

import Reckoner.Decimal.Shortest
import Reckoner.Proofs.Digits

namespace Reckoner

attribute [local instance (2000)] instPowNat

/-! ## What is told by size -/

theorem Magnitude.two_pow_lt_bound : 2 ^ (52 : Nat) < bound := by
  unfold bound
  generalize 2045 = last
  have hpos := Nat.two_pow_pos last
  omega

namespace Binary64

/-- What is twice past every number is rounded to infinity. -/
theorem nearest_of_past (negative : Bool) {n d : Nat} (h : 2 * Magnitude.bound ≤ n / d) :
    nearest negative n d = .infinite negative := by
  have hbound : Magnitude.bound ≤ rounded n d := by
    have hlt : 2 * Magnitude.bound < 2 * (2 ^ (52 : Nat) * 2 ^ grain n d) := by
      have hquotient := quotient_lt n d
      rw [Nat.pow_add] at hquotient
      omega
    have hgrain : grain n d ≠ 0 := by
      intro h0
      have hle := Magnitude.two_pow_lt_bound
      rw [h0] at hlt
      omega
    have hround := Nat.mul_le_mul_right (2 ^ grain n d) ((le_roundDiv_grain n d).resolve_left hgrain)
    unfold rounded
    omega
  rcases nearest_cases negative n d with ⟨m, -, hunits⟩ | ⟨hinfinite, -⟩
  · rw [← hunits] at hbound
    exact absurd m.units_lt_bound (Nat.not_lt_of_le hbound)
  · exact hinfinite

/-- What is no more than half a unit is rounded to zero. -/
theorem nearest_of_tiny (negative : Bool) {n d : Nat} (hd : 0 < d) (h : 2 * n ≤ d) :
    nearest negative n d = .finite negative .zero := by
  apply nearest_of_rounded
  have hquotient : n / d = 0 := Nat.div_eq_of_lt (by omega)
  have hgrain : grain n d = 0 := by rw [grain, hquotient]; rfl
  have hround : roundDiv n d = 0 := by
    rw [roundDiv, hquotient, Nat.mod_eq_of_lt (by omega)]
    exact if_pos ((Nat.lt_or_eq_of_le h).imp_right fun htie => ⟨htie, rfl⟩)
  rw [rounded, hgrain, Nat.pow_zero, Nat.mul_one, Nat.mul_one, hround]
  rfl

/-- Equal quotients have the same nearest number. -/
theorem nearest_congr (negative : Bool) {n d n' d' : Nat} (hd : 0 < d) (hd' : 0 < d')
    (h : (n : ℚ) / d = (n' : ℚ) / d') : nearest negative n d = nearest negative n' d' := by
  have hcross : n * d' = n' * d := by
    have hne : (d : ℚ) ≠ 0 := Nat.cast_ne_zero.mpr (Nat.ne_of_gt hd)
    have hne' : (d' : ℚ) ≠ 0 := Nat.cast_ne_zero.mpr (Nat.ne_of_gt hd')
    rw [div_eq_div_iff hne hne'] at h
    exact_mod_cast h
  rw [← nearest_scale negative n d hd', ← nearest_scale negative n' d' hd, hcross, Nat.mul_comm d d']

end Binary64

/-! ## A decimal is read by its value -/

namespace Decimal

/-- The decimal in units, as a quotient of whole numbers. -/
def quotient (d : Decimal) : Nat × Nat :=
  match d.exponent with
  | .ofNat k => (d.coefficient * 10 ^ k * unitsPerOne, 1)
  | .negSucc n => (d.coefficient * unitsPerOne, 10 ^ (n + 1))

theorem quotient_pos (d : Decimal) : 0 < d.quotient.2 := by
  unfold quotient
  split
  · exact Nat.one_pos
  · exact Nat.pow_pos (by decide)

theorem value_quotient (d : Decimal) : d.value * unitsPerOne = (d.quotient.1 : ℚ) / d.quotient.2 := by
  obtain ⟨c, k | n⟩ := d
  · rw [value_ofNat, quotient, Nat.cast_one, div_one]
  · rw [value_negSucc, quotient]

/-- The two cases that are told by size are no exceptions. -/
theorem toBinary64_eq (d : Decimal) : d.toBinary64 = .nearest false d.quotient.1 d.quotient.2 := by
  obtain ⟨c, e⟩ := d
  unfold toBinary64
  by_cases hc : c = 0
  · have hzero : (⟨c, e⟩ : Decimal).quotient.1 = 0 := by
      rw [hc]
      cases e <;> simp only [quotient, Nat.zero_mul]
    rw [if_pos hc, hzero]
    exact (Binary64.nearest_of_tiny false (quotient_pos _) (Nat.zero_le _)).symm
  rw [if_neg hc]
  cases e with
  | ofNat k =>
    show (if 400 ≤ k then _ else _) = Binary64.nearest false (c * 10 ^ k * unitsPerOne) 1
    by_cases hk : 400 ≤ k
    · have hpast : 2 * Magnitude.bound ≤ c * 10 ^ k * unitsPerOne / 1 := by
        rw [Nat.div_one, Nat.mul_assoc]
        exact Nat.le_trans (two_mul_bound_le hk) (Nat.le_mul_of_pos_left _ (Nat.pos_of_ne_zero hc))
      rw [if_pos hk, Binary64.nearest_of_past false hpast]
    · exact if_neg hk
  | negSucc n =>
    show (if c.log2 + 1200 ≤ 3 * (n + 1) then _ else _) = Binary64.nearest false (c * unitsPerOne) (10 ^ (n + 1))
    by_cases hk : c.log2 + 1200 ≤ 3 * (n + 1)
    · have hten : 0 < 10 ^ (n + 1) := Nat.pow_pos (by decide)
      rw [if_pos hk, Binary64.nearest_of_tiny false hten (Nat.le_of_lt (two_mul_lt_ten_pow hk))]
      rfl
    · exact if_neg hk

/-- Decimals of one value are read as one number. -/
theorem toBinary64_congr {d d' : Decimal} (h : d.value = d'.value) : d.toBinary64 = d'.toBinary64 := by
  rw [toBinary64_eq, toBinary64_eq]
  apply Binary64.nearest_congr false d.quotient_pos d'.quotient_pos
  rw [← value_quotient, ← value_quotient, h]

theorem toBinary64_trim (d : Decimal) : d.trim.toBinary64 = d.toBinary64 := toBinary64_congr d.value_trim

end Decimal

/-! ## The shortest digits -/

namespace Magnitude

/-- All digits of a magnitude are read as it. -/
theorem toBinary64_toDecimal (m : Magnitude) : m.toDecimal.toBinary64 = .finite false m := by
  have hunits := Decimal.value_quotient m.toDecimal
  have hpos := Decimal.quotient_pos m.toDecimal
  rw [m.value_toDecimal] at hunits
  rw [Decimal.toBinary64_eq, ← Binary64.nearest_units false m Nat.one_pos]
  refine Binary64.nearest_congr false hpos Nat.one_pos ?_
  rw [← hunits, Nat.mul_one, Nat.cast_one, div_one]

theorem eq_of_readsAs {d : Decimal} {m : Magnitude} (h : d.readsAs m = true) : d.toBinary64 = .finite false m :=
  eq_of_beq h

/-- A grid is left for a finer one only if neither neighbour on it is read as the magnitude. -/
theorem toBinary64_shortestFrom (m : Magnitude) (j : Nat) : (m.shortestFrom j).toBinary64 = .finite false m := by
  induction j with
  | zero => exact m.toBinary64_toDecimal
  | succ j ih =>
    unfold shortestFrom
    dsimp only
    split
    · rename_i hlower
      split
      · rename_i hupper
        exact eq_of_readsAs ((Bool.and_eq_true _ _).mp hupper).1
      · exact eq_of_readsAs hlower
    · split
      · rename_i hupper
        exact eq_of_readsAs hupper
      · exact ih

theorem toBinary64_shortest (m : Magnitude) : m.shortest.toBinary64 = .finite false m := by
  rw [shortest, Decimal.toBinary64_trim, toBinary64_shortestFrom]

end Magnitude

end Reckoner
