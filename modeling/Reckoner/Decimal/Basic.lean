/-
  Reckoner.Decimal.Basic — decimal numbers and their written forms.

  A decimal is a whole coefficient times a power of ten. It is written in positional form
  (`0.00125`, `1000`) or in scientific form (`1.25e-03`). Trimming drops the zeros at the end
  of the coefficient, so that neither form of a trimmed decimal ends in a zero it could do
  without.

  - `roundTo`: to a number of significant digits, ties to even.
  - `digitCount_eq`: the digits of a coefficient are counted without writing them down.
  - `trim_coefficient_mod`: a trimmed coefficient is zero or does not end in zero.
-/

import Reckoner.Binary64.Rounding

namespace Reckoner

attribute [local instance (2000)] instPowNat

/-- `coefficient * 10 ^ exponent`. -/
structure Decimal where
  coefficient : Nat
  exponent : Int
  deriving DecidableEq

namespace Decimal

def digits (d : Decimal) : List Char := Nat.toDigits 10 d.coefficient

/-- The least `c` from `count` on with `n < 10 ^ c`. -/
def countFrom (n count : Nat) : Nat :=
  if _h : n < 10 ^ count then count else countFrom n (count + 1)
  termination_by n - count
  decreasing_by
    have : count < 10 ^ count := Nat.lt_pow_self (by decide)
    omega

/-- The number of digits of `n`; ten bits are at least three digits. -/
def digitCount (n : Nat) : Nat := countFrom n (n.log2 / 10 * 3 + 1)

theorem countFrom_eq {n c count : Nat} (hc : n < 10 ^ c) (hl : ∀ b, b < c → 10 ^ b ≤ n) (h : count ≤ c) :
    countFrom n count = c := by
  fun_induction countFrom n count with
  | case1 count hn =>
    rcases Nat.lt_or_eq_of_le h with hlt | rfl
    · exact absurd (hl count hlt) (Nat.not_le_of_lt hn)
    · rfl
  | case2 count hn ih =>
    rcases Nat.lt_or_eq_of_le h with hlt | rfl
    · exact ih hlt
    · exact absurd hc hn

theorem ten_pow_le {n : Nat} (h : n ≠ 0) : 10 ^ (n.log2 / 10 * 3) ≤ n :=
  calc 10 ^ (n.log2 / 10 * 3) = 1000 ^ (n.log2 / 10) := by rw [Nat.mul_comm, Nat.pow_mul]
    _ ≤ 1024 ^ (n.log2 / 10) := Nat.pow_le_pow_left (by decide) _
    _ = 2 ^ (n.log2 / 10 * 10) := by rw [Nat.mul_comm, Nat.pow_mul]
    _ ≤ 2 ^ n.log2 := Nat.pow_le_pow_right (by decide) (Nat.div_mul_le_self _ _)
    _ ≤ n := Nat.log2_self_le h

theorem length_toDigits_pos (n : Nat) : 0 < (Nat.toDigits 10 n).length := by
  rcases Nat.lt_or_ge n 10 with h | h
  · rw [Nat.toDigits_of_lt_base h]
    exact Nat.one_pos
  · rw [Nat.toDigits_of_base_le (by decide) h, List.length_append]
    exact Nat.lt_add_left _ Nat.one_pos

theorem lt_ten_pow_length (n : Nat) : n < 10 ^ (Nat.toDigits 10 n).length :=
  (Nat.length_toDigits_le_iff (by decide) (length_toDigits_pos n)).mp (Nat.le_refl _)

theorem ten_pow_le_of_lt_length {n b : Nat} (hn : n ≠ 0) (h : b < (Nat.toDigits 10 n).length) : 10 ^ b ≤ n := by
  rcases Nat.eq_zero_or_pos b with rfl | hb
  · exact Nat.pos_of_ne_zero hn
  · exact Nat.le_of_not_lt fun hlt =>
      Nat.not_le_of_lt h ((Nat.length_toDigits_le_iff (by decide) hb).mpr hlt)

theorem digitCount_eq (n : Nat) : digitCount n = (Nat.toDigits 10 n).length := by
  by_cases hn : n = 0
  · subst hn
    rw [digitCount, countFrom, dif_pos (by decide)]
    rfl
  · refine countFrom_eq (lt_ten_pow_length n) (fun b hb => ten_pow_le_of_lt_length hn hb) ?_
    exact Nat.succ_le_of_lt <| (Nat.pow_lt_pow_iff_right (by decide)).mp <|
      Nat.lt_of_le_of_lt (ten_pow_le hn) (lt_ten_pow_length n)

/-- The exponent of the first digit. -/
def decade (d : Decimal) : Int := d.exponent + (digitCount d.coefficient - 1 : Nat)

def trimmed (c : Nat) (e : Int) : Decimal :=
  if h : c ≠ 0 ∧ c % 10 = 0 then trimmed (c / 10) (e + 1) else ⟨c, e⟩
  termination_by c
  decreasing_by omega

/-- The same number with the shortest coefficient. -/
def trim (d : Decimal) : Decimal := if d.coefficient = 0 then ⟨0, 0⟩ else trimmed d.coefficient d.exponent

theorem trimmed_coefficient_mod (c : Nat) (e : Int) :
    (trimmed c e).coefficient = 0 ∨ (trimmed c e).coefficient % 10 ≠ 0 := by
  fun_induction trimmed c e with
  | case1 c e h ih => exact ih
  | case2 c e h =>
    by_cases h0 : c = 0
    · exact .inl h0
    · exact .inr fun hm => h ⟨h0, hm⟩

theorem trim_coefficient_mod (d : Decimal) : d.trim.coefficient = 0 ∨ d.trim.coefficient % 10 ≠ 0 := by
  unfold trim
  split
  · exact .inl rfl
  · exact trimmed_coefficient_mod _ _

/-- Rounded to `count` significant digits, a tie to the even last digit. -/
def roundTo (d : Decimal) (count : Nat) : Decimal :=
  let cut := digitCount d.coefficient - count
  trim ⟨roundDiv d.coefficient (10 ^ cut), d.exponent + cut⟩

/-! ## Written forms -/

def positional (d : Decimal) : List Char :=
  match d.exponent with
  | .ofNat zeros => d.digits ++ List.replicate zeros '0'
  | .negSucc n =>
    let places := n + 1
    let whole := d.digits.length - places
    if places < d.digits.length then d.digits.take whole ++ '.' :: d.digits.drop whole
    else '0' :: '.' :: (List.replicate (places - d.digits.length) '0' ++ d.digits)

/-- A sign and at least two digits. -/
def exponentText (x : Int) : List Char :=
  let sign := if x < 0 then '-' else '+'
  let digits := Nat.toDigits 10 x.natAbs
  sign :: (if digits.length < 2 then '0' :: digits else digits)

/-- One digit before the point, and a point only if more digits follow. -/
def scientific (d : Decimal) : List Char :=
  let fraction := d.digits.drop 1
  let mantissa := d.digits.take 1 ++ (if fraction.isEmpty then [] else '.' :: fraction)
  mantissa ++ 'e' :: exponentText d.decade

end Decimal

end Reckoner
