/-
  Reckoner.Proofs.GeneralForm — general notation by the number it shows.

  A magnitude is rounded once, and both the notation and the digits come from the outcome. The same
  outcome is the nearest number of as many places behind the point as are asked for, also where
  rounding leads to a new decade: so positional notation may as well round the magnitude itself
  there. A trimmed decimal ends in no zero, and neither does what is written of it behind a point.

  - `IsPlain`, `IsScientific`: the two notations by their texts alone.
  - `isPlain_positional`, `isScientific_scientific`: a trimmed decimal in each of them.
  - `general_notation_rounds`: what is printed of a number, and when nothing can be.
-/

import Reckoner.Proofs.Literals
import Reckoner.Proofs.Significant
import Reckoner.Proofs.Written

namespace Reckoner

attribute [local instance (2000)] instPowNat

/-! ## Digits -/

theorem digitChar_ne_zero {k : Nat} (hlow : 0 < k) (hhigh : k < 10) : k.digitChar ≠ '0' := by
  intro h
  have hcode := Nat.toNat_digitChar_of_lt_ten hhigh
  rw [h] at hcode
  have hzero : '0'.toNat = 48 := rfl
  omega

/-- The first digit of a number is not zero. -/
theorem toDigits_eq_cons (n : Nat) : 0 < n → ∃ c cs, Nat.toDigits 10 n = c :: cs ∧ c ≠ '0' := by
  induction n using Nat.strong_induction_on with
  | h n ih =>
    intro hn
    by_cases hlt : n < 10
    · exact ⟨_, [], Nat.toDigits_of_lt_base hlt, digitChar_ne_zero hn hlt⟩
    · obtain ⟨c, cs, hc, hne⟩ := ih (n / 10) (by omega) (by omega)
      refine ⟨c, cs ++ [(n % 10).digitChar], ?_, hne⟩
      rw [Nat.toDigits_of_base_le (by decide) (by omega), hc]
      rfl

/-- Nor is the last one, if it ends in no zero. -/
theorem getLast?_toDigits {n : Nat} (h : n % 10 ≠ 0) : ∃ c, (Nat.toDigits 10 n).getLast? = some c ∧ c ≠ '0' := by
  refine ⟨(n % 10).digitChar, ?_, digitChar_ne_zero (by omega) (by omega)⟩
  by_cases hlt : n < 10
  · rw [Nat.toDigits_of_lt_base hlt, Nat.mod_eq_of_lt hlt]
    rfl
  · rw [Nat.toDigits_of_base_le (by decide) (by omega)]
    exact List.getLast?_concat

/-! ## Notations -/

open Literal

/-- Where there is a point digits stand behind it, and the last of them is not zero. -/
def IsTidy (fraction : Option (List Char)) : Prop :=
  ∀ digits ∈ fraction, (∀ c ∈ digits, c.isDigit = true) ∧ ∃ c, digits.getLast? = some c ∧ c ≠ '0'

/-- Digits, and perhaps a point with more of them. A zero in front stands for itself. -/
def IsPlain (cs : List Char) : Prop :=
  ∃ whole fraction, cs = whole ++ fractionText fraction ∧ (∀ c ∈ whole, c.isDigit = true) ∧
    (whole = ['0'] ∨ ∃ c rest, whole = c :: rest ∧ c ≠ '0') ∧ IsTidy fraction

/-- One digit, perhaps a point with more of them, and the exponent `x` with a sign and at least two
    digits. -/
def IsScientific (x : Int) (cs : List Char) : Prop :=
  ∃ first fraction exponent, cs = first :: (fractionText fraction ++ 'e' :: (if x < 0 then '-' else '+') :: exponent) ∧
    first.isDigit = true ∧ first ≠ '0' ∧ IsTidy fraction ∧
    (∀ c ∈ exponent, c.isDigit = true) ∧ 2 ≤ exponent.length ∧ Nat.ofDigitChars 10 exponent 0 = x.natAbs

theorem IsPlain.not_mem {cs : List Char} (h : IsPlain cs) : 'e' ∉ cs := by
  obtain ⟨whole, fraction, rfl, hwhole, -, htidy⟩ := h
  have hdigits : ∀ {ds : List Char}, (∀ c ∈ ds, c.isDigit = true) → 'e' ∉ ds := by
    intro ds hds he
    exact absurd (hds _ he) (by decide)
  rw [List.mem_append, not_or]
  refine ⟨hdigits hwhole, ?_⟩
  cases fraction with
  | none => exact List.not_mem_nil
  | some ds => exact List.not_mem_cons_of_ne_of_not_mem (by decide) (hdigits (htidy ds rfl).1)

theorem IsPlain.isDigit_head? {cs : List Char} (h : IsPlain cs) : ∀ c ∈ cs.head?, c.isDigit = true := by
  obtain ⟨whole, fraction, rfl, hdigits, hwhole, -⟩ := h
  obtain ⟨first, rest, rfl⟩ : ∃ first rest, whole = first :: rest := by
    rcases hwhole with rfl | ⟨first, rest, rfl, -⟩
    · exact ⟨'0', [], rfl⟩
    · exact ⟨first, rest, rfl⟩
  intro c hc
  obtain rfl := Option.some.inj hc
  exact hdigits _ List.mem_cons_self

theorem IsScientific.isDigit_head? {x : Int} {cs : List Char} (h : IsScientific x cs) :
    ∀ c ∈ cs.head?, c.isDigit = true := by
  obtain ⟨first, fraction, exponent, rfl, hfirst, -⟩ := h
  intro c hc
  obtain rfl := Option.some.inj hc
  exact hfirst

/-- No text is in both notations. -/
theorem IsScientific.not_isPlain {x : Int} {cs : List Char} (h : IsScientific x cs) : ¬ IsPlain cs := by
  obtain ⟨first, fraction, exponent, rfl, -⟩ := h
  intro hplain
  refine hplain.not_mem (List.mem_cons_of_mem _ (List.mem_append_right _ List.mem_cons_self))

namespace Decimal

variable {d : Decimal} (h : d.coefficient % 10 ≠ 0)
include h

theorem digits_eq_cons : ∃ c cs, d.digits = c :: cs ∧ c ≠ '0' := toDigits_eq_cons d.coefficient (by omega)

theorem isTidy_append {front back : List Char} (hfront : ∀ c ∈ front, c.isDigit = true)
    (hback : back <:+ d.digits) (hne : back ≠ []) : IsTidy (some (front ++ back)) := by
  intro _ hd
  obtain rfl := Option.some.inj hd
  obtain ⟨c, hlast, hc⟩ := getLast?_toDigits h
  refine ⟨List.forall_mem_append.mpr ⟨hfront, fun c hc => d.isDigit_of_mem_digits c (hback.subset hc)⟩, c, ?_, hc⟩
  obtain ⟨before, hbefore⟩ := hback
  have hwhole : d.digits.getLast? = some c := hlast
  rw [← hbefore, List.getLast?_append_of_ne_nil _ hne] at hwhole
  rw [List.getLast?_append_of_ne_nil _ hne, hwhole]

theorem isTidy_of_suffix {back : List Char} (hback : back <:+ d.digits) (hne : back ≠ []) : IsTidy (some back) := by
  show IsTidy (some ([] ++ back))
  exact isTidy_append h (List.forall_mem_nil _) hback hne

theorem isPlain_positional : IsPlain d.positional := by
  have hdigits := d.isDigit_of_mem_digits
  have hzero : ∀ n, ∀ c ∈ List.replicate n '0', c.isDigit = true := by
    intro n c hc
    obtain rfl := List.eq_of_mem_replicate hc
    rfl
  obtain ⟨first, rest, hcons, hfirst⟩ := digits_eq_cons h
  unfold positional
  split
  · rename_i zeros _
    refine ⟨d.digits ++ List.replicate zeros '0', none, (List.append_nil _).symm,
      List.forall_mem_append.mpr ⟨hdigits, hzero zeros⟩, ?_, ?_⟩
    · exact .inr ⟨first, rest ++ List.replicate zeros '0', by rw [hcons]; rfl, hfirst⟩
    · intro _ hd
      cases hd
  · rename_i n _
    dsimp only
    split
    · rename_i hn
      refine ⟨d.digits.take (d.digits.length - (n + 1)), some (d.digits.drop (d.digits.length - (n + 1))), rfl,
        fun c hc => hdigits c (List.mem_of_mem_take hc), ?_, ?_⟩
      · obtain ⟨k, hk⟩ : ∃ k, d.digits.length - (n + 1) = k + 1 := ⟨d.digits.length - (n + 1) - 1, by omega⟩
        exact .inr ⟨first, rest.take k, by rw [hk, hcons]; rfl, hfirst⟩
      · refine isTidy_of_suffix h (List.drop_suffix _ _) (List.ne_nil_of_length_pos ?_)
        rw [List.length_drop]
        omega
    · exact ⟨['0'], some (List.replicate (n + 1 - d.digits.length) '0' ++ d.digits), rfl, hzero 1, .inl rfl,
        isTidy_append h (hzero _) List.suffix_rfl d.digits_ne_nil⟩

theorem isScientific_scientific : IsScientific d.decade d.scientific := by
  obtain ⟨first, rest, hcons, hfirst⟩ := digits_eq_cons h
  have hdigits := d.isDigit_of_mem_digits
  rw [hcons] at hdigits
  have hdigit : first.isDigit = true := hdigits first List.mem_cons_self
  obtain ⟨exponent, htext, hexponent⟩ := exponentText_eq_cons d.decade
  by_cases hr : rest = []
  · refine ⟨first, none, exponent, ?_, hdigit, hfirst, ?_, hexponent⟩
    · simp only [scientific, hcons, hr, htext]
      rfl
    · intro _ hd
      cases hd
  · refine ⟨first, some rest, exponent, ?_, hdigit, hfirst, ?_, hexponent⟩
    · have he : rest.isEmpty = false := List.isEmpty_eq_false_iff.mpr hr
      simp only [scientific, hcons, htext, List.drop_succ_cons, List.drop_zero, he]
      rfl
    · exact isTidy_of_suffix h (hcons ▸ List.suffix_cons first rest) hr

end Decimal

/-! ## Numbers -/

namespace Magnitude

/-- Below the units there are bits behind the point. -/
theorem value_of_exponent {m : Magnitude} {k : Nat} (h : m.exponent + k = 1074) : m.value = m.significand / 2 ^ k := by
  unfold value units unitsPerOne
  rw [← h]
  generalize m.exponent = e
  have he : (2 : ℚ) ^ e ≠ 0 := pow_ne_zero e (by norm_num)
  rw [Nat.pow_add]
  push_cast
  field_simp

theorem decimal_value (m : Magnitude) : m.toDecimal.value = m.value := by
  have hone : (unitsPerOne : ℚ) ≠ 0 := Nat.cast_ne_zero.mpr (Nat.ne_of_gt unitsPerOne_pos)
  unfold value
  rw [← m.value_toDecimal]
  exact (mul_div_cancel_right₀ _ hone).symm

section

variable {m : Magnitude} (hm : m ≠ .zero) {count : Nat} (hcount : 0 < count)
include hm

theorem roundedTo_value : RoundedTo count m.value (m.toDecimal.roundTo count).value :=
  m.decimal_value ▸ Decimal.roundedTo_roundTo (coefficient_toDecimal_ne_zero hm) count

include hcount

theorem coefficient_roundTo_ne_zero : (m.toDecimal.roundTo count).coefficient ≠ 0 :=
  Decimal.coefficient_ne_zero_of_value_pos (RoundedTo.pos hcount (roundedTo_value hm))

/-- A rounded decimal is trimmed. -/
theorem coefficient_roundTo_mod : (m.toDecimal.roundTo count).coefficient % 10 ≠ 0 := by
  rcases Decimal.trim_coefficient_mod ⟨_, _⟩ with hzero | hmod
  · exact absurd hzero (coefficient_roundTo_ne_zero hm hcount)
  · exact hmod

theorem hasDecade_roundTo : HasDecade (m.toDecimal.roundTo count).value (m.toDecimal.roundTo count).decade :=
  Decimal.hasDecade_decade (coefficient_roundTo_ne_zero hm hcount)

end

/-- When nothing is printed. -/
theorem generalText?_eq_none (m : Magnitude) (count : Nat) :
    m.generalText? count = none ↔ maxPlaces < count - 1 ∨
      (-4 ≤ (m.toDecimal.roundTo count).decade ∧ (m.toDecimal.roundTo count).decade < count ∧
        (maxPlaces : Int) < count - 1 - (m.toDecimal.roundTo count).decade) := by
  unfold generalText?
  generalize m.toDecimal.roundTo count = d
  dsimp only
  split
  · rename_i hmany
    exact iff_of_true rfl (.inl hmany)
  · rename_i hfew
    simp only [isPositional, Bool.and_eq_true, decide_eq_true_eq]
    split
    · rename_i hx
      split <;> simp <;> omega
    · rename_i hx
      simp
      omega

end Magnitude

namespace Binary64

theorem head?_signText (negative : Bool) {digits : List Char} (h : ∀ c ∈ digits.head?, c.isDigit = true) :
    (signText negative ++ digits).head? = some '-' ↔ negative = true := by
  cases negative with
  | true => exact iff_of_true rfl rfl
  | false =>
    refine iff_of_false ?_ Bool.false_ne_true
    intro hd
    exact absurd (h '-' hd) (by decide)

/-- General notation of a number other than zero. The magnitude is rounded to the digits asked for,
    at least one; `d` is the outcome and `x` the exponent of its first digit. Rounded at the place
    behind the point to which positional notation goes, it is `d` again. More than 65535 places
    behind a point cannot be asked for; if none is, the text is the sign and `d` in the notation
    that `x` calls for. -/
theorem general_notation_rounds (negative : Bool) {m : Magnitude} (hm : m ≠ .zero) {precision count : Nat}
    (hcount : count = max precision 1) :
    (∃ d x, RoundedTo count m.value d ∧ HasDecade d x) ∧
    ∀ d x, RoundedTo count m.value d → HasDecade d x →
      HalfEven m.value (10 ^ (-(count - 1 - x))) d ∧
      ((finite negative m).generalText? precision = none ↔
        65535 < count - 1 ∨ (-4 ≤ x ∧ x < count ∧ 65535 < count - 1 - x)) ∧
      ∀ text, (finite negative m).generalText? precision = some text →
        ∃ digits, text.toList = signText negative ++ digits ∧ Literal.Denotes digits d ∧
          (text.toList.head? = some '-' ↔ negative = true) ∧
          (IsPlain digits ↔ -4 ≤ x ∧ x < count) ∧ (¬ (-4 ≤ x ∧ x < count) → IsScientific x digits) := by
  have hpos : 0 < count := by omega
  have hrounded : RoundedTo count m.value (m.toDecimal.roundTo count).value := Magnitude.roundedTo_value hm
  have hdecade := Magnitude.hasDecade_roundTo hm hpos
  have hmod := Magnitude.coefficient_roundTo_mod hm hpos
  refine ⟨⟨_, _, hrounded, hdecade⟩, ?_⟩
  intro d x hd hx
  obtain rfl := hd.unique hrounded
  obtain rfl := hx.unique hdecade
  have htext : (finite negative m).generalText? precision =
      (m.generalText? count).map fun digits => String.ofList (signText negative ++ digits) := by
    unfold generalText?
    dsimp only
    rw [if_neg hm, hcount]
  refine ⟨?_, ?_, ?_⟩
  · have hplace : -((count : Int) - 1 - (m.toDecimal.roundTo count).decade) =
        (m.toDecimal.roundTo count).decade + 1 - count := by omega
    rw [hplace]
    exact hrounded.halfEven hpos hdecade
  · rw [htext, Option.map_eq_none_iff]
    exact m.generalText?_eq_none count
  · intro text h
    rw [htext] at h
    obtain ⟨digits, hdigits, rfl⟩ := Option.map_eq_some_iff.mp h
    have hform := Magnitude.generalText?_eq_some hdigits
    rw [String.toList_ofList]
    have hrange : isPositional count (m.toDecimal.roundTo count).decade = true ↔
        -4 ≤ (m.toDecimal.roundTo count).decade ∧ (m.toDecimal.roundTo count).decade < count := by
      simp only [isPositional, Bool.and_eq_true, decide_eq_true_eq]
    by_cases hp : isPositional count (m.toDecimal.roundTo count).decade = true
    · rw [if_pos hp] at hform
      subst hform
      have hplain := Decimal.isPlain_positional hmod
      refine ⟨_, rfl, Decimal.denotes_positional _, head?_signText negative hplain.isDigit_head?, ?_, ?_⟩
      · exact iff_of_true hplain (hrange.mp hp)
      · intro hn
        exact absurd (hrange.mp hp) hn
    · rw [if_neg hp] at hform
      subst hform
      have hscientific := Decimal.isScientific_scientific hmod
      refine ⟨_, rfl, Decimal.denotes_scientific _, head?_signText negative hscientific.isDigit_head?, ?_, ?_⟩
      · exact iff_of_false hscientific.not_isPlain (fun hx => hp (hrange.mpr hx))
      · intro _
        exact hscientific

/-- Seven digits in binary, a tie at six of them, and a first digit in the next decade. -/
theorem general_notation_carries :
    ∃ m : Magnitude, m.value = 1999999 / 2 ∧ RoundedTo 6 m.value 1000000 ∧ HasDecade 1000000 6 ∧
      HalfEven m.value 10 1000000 ∧ (finite true m).generalText? 6 = some "-1e+06" ∧
      Literal.Denotes "1e+06".toList 1000000 ∧ IsScientific 6 "1e+06".toList := by
  have hvalue : (⟨1999999 * 2 ^ (32 : Nat), 1041, by decide, by decide, by decide⟩ : Magnitude).value = 1999999 / 2 := by
    rw [Magnitude.value_of_exponent (by decide : 1041 + 33 = 1074)]
    norm_num
  generalize hm : (⟨1999999 * 2 ^ (32 : Nat), 1041, by decide, by decide, by decide⟩ : Magnitude) = m at hvalue
  have htext : (finite true m).generalText? 6 = some "-1e+06" := by
    rw [← hm]
    decide +kernel
  have hrounded : RoundedTo 6 m.value 1000000 := by
    rw [hvalue]
    refine ⟨5, ⟨by norm_num, by norm_num⟩, 1000000, ?_, ?_, ?_⟩
    · norm_num
    · norm_num [abs_of_neg]
    · norm_num
  have hdecade : HasDecade 1000000 6 := ⟨by norm_num, by norm_num⟩
  have hne : m ≠ .zero := by
    rw [← hm]
    decide
  obtain ⟨-, hall⟩ := general_notation_rounds true hne (by decide : 6 = max 6 1)
  obtain ⟨hagain, -, hsome⟩ := hall _ _ hrounded hdecade
  obtain ⟨digits, hlist, hdenotes, -, -, hscientific⟩ := hsome _ htext
  have hdigits : "1e+06".toList = digits := (List.cons.inj hlist).2
  rw [← hdigits] at hdenotes hscientific
  have hplace : (10 : ℚ) ^ (-((6 : Nat) - 1 - 6 : Int)) = 10 := by norm_num
  rw [hplace] at hagain
  exact ⟨m, hvalue, hrounded, hdecade, hagain, htext, hdenotes, hscientific (by decide)⟩

end Binary64

end Reckoner
