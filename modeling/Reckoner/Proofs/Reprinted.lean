/-
  Reckoner.Proofs.Reprinted — up to fifteen digits, what is read back prints the same.

  A number printed to a few digits is not read back as itself, but as the number nearest to the
  decimal that was printed. That one lies so close to the decimal, by less than a part in
  `2 * 10 ^ 15` of it, that rounding it to as many digits gives the decimal again: also below a
  power of ten, where digits count for a tenth of what they do above, and down to decimals that are
  rounded to a bit less than the least number with a full significand. The decimal is written with
  no zeros it could do without, so that its value settles its digits, the notation and the text.

  - `roundedTo_of_close`: what is so close to a decimal of fifteen digits is rounded to it.
  - `Decimal.eq_of_value_eq`: one value is written in one way.
  - `value_close`: how close the number is that a decimal is read as.
  - `printed_again`: printing, reading and printing again.
-/

import Reckoner.Proofs.GeneralForm
import Reckoner.Proofs.ReadBack
import Reckoner.Proofs.TiesToEven

namespace Reckoner

attribute [local instance (2000)] instPowNat

/-! ## Rounding what is close -/

theorem HalfEven.of_near {x unit : ℚ} {q : Nat} (hunit : 0 < unit) (h : 2 * |q * unit - x| < unit) :
    HalfEven x unit (q * unit) := by
  have hdist : |x / unit - q| = |q * unit - x| / unit := by
    have hdiv : x / unit - q = (x - q * unit) / unit := by field_simp
    rw [hdiv, abs_div, abs_of_pos hunit, abs_sub_comm]
  have hlt : 2 * |x / unit - q| < 1 := by
    rw [hdist, ← mul_div_assoc, div_lt_one hunit]
    exact h
  exact ⟨q, rfl, le_of_lt hlt, fun htie => absurd htie (ne_of_lt hlt)⟩

/-- Rounding takes away less than half. -/
theorem RoundedTo.le_two_mul {count : Nat} (hcount : 0 < count) {x y : ℚ} (h : RoundedTo count x y) : x ≤ 2 * y := by
  obtain ⟨z, hz, q, rfl, hq, -⟩ := h
  have hunit : (0 : ℚ) < 10 ^ (z + 1 - (count : Int)) := zpow_pos (by norm_num) _
  have hpos : 1 ≤ q := Nat.le_trans (Nat.pow_pos (by decide)) (bounds_of_halfEven hcount hz hq).1
  have hone : (1 : ℚ) ≤ q := by exact_mod_cast hpos
  have hle := le_abs_self (x / 10 ^ (z + 1 - (count : Int)) - q)
  have hdiv : x / 10 ^ (z + 1 - (count : Int)) ≤ 2 * q := by linarith
  rwa [div_le_iff₀ hunit, mul_assoc] at hdiv

/-- Two multiples of a unit are a unit apart. -/
theorem add_unit_le {unit : ℚ} (hunit : 0 < unit) {q k : Nat} (h : (q : ℚ) * unit < k * unit) :
    q * unit + unit ≤ k * unit := by
  have hlt : q < k := Nat.cast_lt.mp (lt_of_mul_lt_mul_right h (le_of_lt hunit))
  have hle : ((q + 1 : Nat) : ℚ) ≤ k := Nat.cast_le.mpr hlt
  calc (q : ℚ) * unit + unit = (q + 1 : Nat) * unit := by rw [Nat.cast_add_one, add_mul, one_mul]
    _ ≤ k * unit := mul_le_mul_of_nonneg_right hle (le_of_lt hunit)

section

variable {count : Nat} (hlimit : count ≤ 15)
include hlimit

/-- What is close to a number of fifteen digits or fewer is less than half of the last one away. -/
theorem near_of_close {y w unit : ℚ} (h : 2 * 10 ^ 15 * |y - w| < y) (hunit : 0 < unit)
    (hy : y ≤ (10 ^ count : Nat) * unit) : 2 * |y - w| < unit := by
  have hpow : ((10 ^ count : Nat) : ℚ) ≤ 10 ^ 15 := by exact_mod_cast Nat.pow_le_pow_right (by decide) hlimit
  have hle := mul_le_mul_of_nonneg_right hpow (le_of_lt hunit)
  linarith

variable (hcount : 0 < count)
include hcount

/-- Below a power of ten the digits stand for a tenth of what they do above. -/
theorem roundedTo_ten_pow {w : ℚ} {z : Int} (hw : w < 10 ^ z) (h : 2 * 10 ^ 15 * |10 ^ z - w| < 10 ^ z) :
    RoundedTo count w (10 ^ z) := by
  obtain ⟨-, hlast⟩ := pow_mul_unit hcount (z - 1)
  have hunit : (0 : ℚ) < 10 ^ (z - 1 + 1 - (count : Int)) := zpow_pos (by norm_num) _
  have htenth : (10 : ℚ) ^ z = 10 ^ (z - 1) * 10 := by
    rw [← zpow_add_one₀ (by norm_num), sub_add_cancel]
  have hpos : (0 : ℚ) < 10 ^ (z - 1) := zpow_pos (by norm_num) _
  have hbelow := le_abs_self (10 ^ z - w)
  rw [sub_add_cancel] at hlast
  have hnear := near_of_close hlimit h hunit (le_of_eq (by rw [sub_add_cancel, hlast]))
  rw [← hlast] at hnear ⊢
  refine ⟨z - 1, ⟨by linarith, by rwa [sub_add_cancel]⟩, ?_⟩
  rw [sub_add_cancel] at hunit hnear ⊢
  exact .of_near hunit hnear

/-- What is close to a decimal of fifteen digits or fewer is rounded to it. -/
theorem roundedTo_of_close {y w : ℚ} {z : Int} (hz : HasDecade y z) {q : Nat} (hq : y = q * 10 ^ (z + 1 - count))
    (h : 2 * 10 ^ 15 * |y - w| < y) : RoundedTo count w y := by
  obtain ⟨hfirst, hnext⟩ := pow_mul_unit hcount z
  have hunit : (0 : ℚ) < 10 ^ (z + 1 - (count : Int)) := zpow_pos (by norm_num) _
  have hnear := near_of_close hlimit h hunit (by rw [hnext]; exact le_of_lt hz.2)
  have habove := le_abs_self (y - w)
  have hbelow := neg_abs_le (y - w)
  by_cases hw : 10 ^ z ≤ w
  · -- the digits are counted from the same decade
    have hlt := hz.2
    rw [← hnext, hq] at hlt
    have hle := add_unit_le hunit hlt
    rw [← hq, hnext] at hle
    refine ⟨z, ⟨hw, by linarith⟩, ?_⟩
    rw [hq] at hnear ⊢
    exact .of_near hunit hnear
  · -- no multiple but the power of ten itself is so near to what lies below it
    have hpower : y = 10 ^ z := by
      by_contra hne
      have hlt := lt_of_le_of_ne hz.1 (Ne.symm hne)
      rw [← hfirst, hq] at hlt
      have hle := add_unit_le hunit hlt
      rw [← hq, hfirst] at hle
      linarith
    rw [hpower] at h ⊢
    exact roundedTo_ten_pow hlimit hcount (not_le.mp hw) h

end

/-! ## One way to write a value -/

theorem Decimal.exponent_le_of_value_eq {d d' : Decimal} (h : d.coefficient % 10 ≠ 0) (hv : d.value = d'.value) :
    d'.exponent ≤ d.exponent := by
  by_contra hlt
  obtain ⟨k, hk⟩ := Int.le.dest (Int.add_one_le_of_lt (Int.lt_of_not_ge hlt))
  have hunit : (10 : ℚ) ^ d.exponent ≠ 0 := zpow_ne_zero _ (by norm_num)
  have hscale : d'.exponent = d.exponent + ((k + 1 : Nat) : Int) := by omega
  unfold value at hv
  rw [hscale, ten_zpow_add, ← mul_assoc, mul_left_inj' hunit, ← Nat.cast_mul, Nat.cast_inj, Nat.pow_succ,
    ← Nat.mul_assoc] at hv
  omega

/-- Of a value there is one decimal that does not end in a zero. -/
theorem Decimal.eq_of_value_eq {d d' : Decimal} (h : d.coefficient % 10 ≠ 0) (h' : d'.coefficient % 10 ≠ 0)
    (hv : d.value = d'.value) : d = d' := by
  have he := le_antisymm (exponent_le_of_value_eq h' hv.symm) (exponent_le_of_value_eq h hv)
  have hunit : (10 : ℚ) ^ d'.exponent ≠ 0 := zpow_ne_zero _ (by norm_num)
  obtain ⟨c, e⟩ := d
  obtain ⟨c', e'⟩ := d'
  obtain rfl : e = e' := he
  have hc := Nat.cast_inj.mp (mul_right_cancel₀ hunit hv)
  rw [show c = c' from hc]

theorem Magnitude.generalText?_congr {count : Nat} {m m' : Magnitude}
    (h : m.toDecimal.roundTo count = m'.toDecimal.roundTo count) : m.generalText? count = m'.generalText? count := by
  unfold generalText?
  rw [h]

/-! ## Printing again -/

theorem Decimal.toBinary64_cases (d : Decimal) :
    (∃ m, d.toBinary64 = .finite false m) ∨ d.toBinary64 = .infinite false := by
  rw [toBinary64_eq]
  rcases Binary64.nearest_cases false d.quotient.1 d.quotient.2 with ⟨m, hm, -⟩ | ⟨hinfinite, -⟩
  · exact .inl ⟨m, hm⟩
  · exact .inr hinfinite

namespace Binary64

open Grammar

theorem generalText?_finite (negative : Bool) {m : Magnitude} (hm : m ≠ .zero) (precision : Nat) :
    (finite negative m).generalText? precision =
      (m.generalText? (max precision 1)).map fun digits => String.ofList (signText negative ++ digits) := by
  unfold generalText?
  dsimp only
  rw [if_neg hm]

/-- A literal behind a sign is an expression of one number. -/
theorem evaluate_signText (negative : Bool) {digits : List Char} {w : Binary64}
    (h : Lexeme.all digits = [.token (.number w)]) :
    evaluate (String.ofList (signText negative ++ digits)) = .ok [if negative then w.neg else w] := by
  cases negative with
  | false =>
    refine evaluate_expression (e := .of (.of (.number w) .none) .none) ?_ rfl
    rw [String.toList_ofList]
    exact h
  | true =>
    refine evaluate_expression (e := .of (.of (.minus (.number w)) .none) .none) ?_ rfl
    rw [String.toList_ofList]
    exact (Lexeme.all_symbol .minus digits).trans (congrArg _ h)

/-- What is printed of a magnitude is a literal of the rounded decimal. -/
theorem all_generalText {m : Magnitude} {count : Nat} {digits : List Char} (h : m.generalText? count = some digits) :
    Lexeme.all digits = [.token (.number (m.toDecimal.roundTo count).toBinary64)] := by
  have hdenotes : Literal.Denotes digits (m.toDecimal.roundTo count).value := by
    rcases Magnitude.generalText?_forms h with rfl | rfl
    · exact Decimal.denotes_positional _
    · exact Decimal.denotes_scientific _
  obtain ⟨l, hl, rfl, hvalue⟩ := hdenotes
  rw [Literal.all_text hl, Literal.value, Decimal.toBinary64_congr hvalue]

/-- A decimal that is not far below the least number with a full significand is close to the number
    that it is read as. -/
theorem value_close {d : Decimal} (h : (2 : ℚ) ^ (-1023 : Int) ≤ d.value) {m : Magnitude}
    (hm : d.toBinary64 = .finite false m) : 2 * 10 ^ 15 * |d.value - m.value| < d.value := by
  rw [Decimal.toBinary64_eq] at hm
  have hmoved := mul_abs_sub_value_le d.quotient_pos d.value_quotient hm (by decide : 51 ≤ 52) h
  have hpos : (0 : ℚ) < 2 ^ (-1023 : Int) := zpow_pos two_pos _
  have hnonneg := abs_nonneg (d.value - m.value)
  norm_num at hmoved
  linarith

/-- The digits of a number that a rounded decimal is read as are rounded to the same decimal. -/
theorem roundTo_of_read {m m' : Magnitude} (hm : 2 ^ (-1022 : Int) ≤ m.value) {count : Nat} (hcount : 0 < count)
    (hlimit : count ≤ 15) (hread : (m.toDecimal.roundTo count).toBinary64 = .finite false m') :
    m' ≠ .zero ∧ m'.toDecimal.roundTo count = m.toDecimal.roundTo count := by
  have hne : m ≠ .zero := Magnitude.ne_zero_of_value_pos (lt_of_lt_of_le (zpow_pos two_pos _) hm)
  have hrounded : RoundedTo count m.value (m.toDecimal.roundTo count).value := Magnitude.roundedTo_value hne
  have hdecade := Magnitude.hasDecade_roundTo hne hcount
  have hmod := Magnitude.coefficient_roundTo_mod hne hcount
  have hlarge : (2 : ℚ) ^ (-1023 : Int) ≤ (m.toDecimal.roundTo count).value := by
    have hhalf := hrounded.le_two_mul hcount
    have hpow : (2 : ℚ) ^ (-1022 : Int) = 2 * 2 ^ (-1023 : Int) := zpow_one_add₀ two_ne_zero (-1023)
    rw [hpow] at hm
    linarith
  have hclose := value_close hlarge hread
  have hne' : m' ≠ .zero := by
    rintro rfl
    have hpos := hdecade.pos
    rw [Magnitude.value_zero, sub_zero, abs_of_pos hpos] at hclose
    linarith
  refine ⟨hne', ?_⟩
  obtain ⟨q, hq, -⟩ := hrounded.halfEven hcount hdecade
  have hagain : RoundedTo count m'.value (m.toDecimal.roundTo count).value :=
    roundedTo_of_close hlimit hcount hdecade hq hclose
  exact Decimal.eq_of_value_eq (Magnitude.coefficient_roundTo_mod hne' hcount) hmod
    ((Magnitude.roundedTo_value hne').unique hagain)

/-- A number with a full significand, printed to no more than fifteen digits, is read back as one
    number, and that prints the same unless it is past every number. -/
theorem printed_again (negative : Bool) {m : Magnitude} (hm : 2 ^ (-1022 : Int) ≤ m.value) {precision : Nat}
    (hp : precision ≤ 15) :
    ∃ text w, (finite negative m).generalText? precision = some text ∧ evaluate text = .ok [w] ∧
      (w.isFinite = true → w.generalText? precision = some text) := by
  have hne : m ≠ .zero := Magnitude.ne_zero_of_value_pos (lt_of_lt_of_le (zpow_pos two_pos _) hm)
  obtain ⟨text, htext⟩ := generalText?_isSome (Nat.le_trans hp (by decide)) (finite negative m)
  have hmap := htext
  rw [generalText?_finite negative hne] at hmap
  obtain ⟨digits, hdigits, hjoined⟩ := Option.map_eq_some_iff.mp hmap
  have hread := evaluate_signText negative (all_generalText hdigits)
  rw [hjoined] at hread
  rcases Decimal.toBinary64_cases (m.toDecimal.roundTo (max precision 1)) with ⟨m', hm'⟩ | hinfinite
  · obtain ⟨hne', hsame⟩ := roundTo_of_read hm (by omega) (by omega) hm'
    have hvalue : (if negative then (finite false m').neg else finite false m') = finite negative m' := by
      cases negative <;> rfl
    rw [hm', hvalue] at hread
    refine ⟨text, finite negative m', htext, hread, fun _ => ?_⟩
    rw [generalText?_finite negative hne', Magnitude.generalText?_congr hsame, hdigits]
    exact congrArg some hjoined
  · rw [hinfinite] at hread
    refine ⟨text, _, htext, hread, ?_⟩
    intro hfinite
    cases negative <;> cases hfinite

/-- The least number with a full significand is printed as a decimal below it, and that is read as
    another number. -/
theorem printed_again_least :
    (ofBits 0x8010000000000000).generalText? 0 = some "-2e-308" ∧ evaluate "-2e-308" = .ok [ofBits 0x800e61acf033d1a4] ∧
      (ofBits 0x800e61acf033d1a4).generalText? 0 = some "-2e-308" := by
  have hvalue : (2 : ℚ) ^ (-1022 : Int) ≤
      (⟨2 ^ (52 : Nat), 0, leastNormal_lt, Nat.zero_le _, .inl rfl⟩ : Magnitude).value := by
    unfold Magnitude.value Magnitude.units
    dsimp only
    rw [cast_unitsPerOne, Nat.pow_zero, Nat.mul_one, cast_two_pow, ← zpow_sub₀ two_ne_zero]
    exact le_refl _
  have htext : (ofBits 0x8010000000000000).generalText? 0 = some "-2e-308" := by decide +kernel
  have hread : evaluate "-2e-308" = .ok [ofBits 0x800e61acf033d1a4] := by decide +kernel
  obtain ⟨text, w, hprinted, he, hagain⟩ := printed_again true hvalue (by decide : 0 ≤ 15)
  have hleast : finite true ⟨2 ^ (52 : Nat), 0, leastNormal_lt, Nat.zero_le _, .inl rfl⟩ = ofBits 0x8010000000000000 := by
    decide +kernel
  rw [hleast, htext] at hprinted
  obtain rfl := Option.some.inj hprinted
  rw [hread] at he
  obtain rfl := (List.cons.inj (Except.ok.inj he)).1
  exact ⟨htext, hread, hagain (by decide)⟩

end Binary64

end Reckoner
