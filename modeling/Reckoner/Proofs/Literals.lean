/-
  Reckoner.Proofs.Literals — a decimal in writing is a literal of the same value.

  A literal that stands alone is read as a whole: each part of the scan stops where the next part
  begins. Both written forms of a decimal are literals, and spell the decimal itself.

  - `scan?_text`, `all_text`: the scan takes a literal back, and it is one lexeme.
  - `denotes_positional`, `denotes_scientific`: the written forms of a decimal.
-/

import Mathlib.Data.List.TakeWhile
import Reckoner.Proofs.Digits
import Reckoner.Proofs.Reading

namespace Reckoner

namespace Literal

/-! ## Reading back -/

/-- Digits are taken up to the first character that is none. -/
theorem takeWhile_digits {digits rest : List Char} (hd : ∀ c ∈ digits, c.isDigit = true)
    (hr : ∀ c ∈ rest.head?, c.isDigit = false) : (digits ++ rest).takeWhile Char.isDigit = digits := by
  rw [List.takeWhile_append_of_pos hd]
  cases rest with
  | nil => rw [List.takeWhile_nil, List.append_nil]
  | cons c cs => rw [List.takeWhile_cons_of_neg (by rw [hr c rfl]; exact Bool.false_ne_true), List.append_nil]

theorem dropWhile_digits {digits rest : List Char} (hd : ∀ c ∈ digits, c.isDigit = true)
    (hr : ∀ c ∈ rest.head?, c.isDigit = false) : (digits ++ rest).dropWhile Char.isDigit = rest := by
  rw [List.dropWhile_append_of_pos hd]
  cases rest with
  | nil => rfl
  | cons c cs => rw [List.dropWhile_cons_of_neg (by rw [hr c rfl]; exact Bool.false_ne_true)]

theorem scanSign_append {x : Exponent} (h : x.WellFormed) (behind : List Char) :
    scanSign (x.sign.toList ++ (x.digits ++ behind)) = (x.sign, x.digits ++ behind) := by
  obtain ⟨-, hsign, hne, hdigits⟩ := h
  cases hs : x.sign with
  | some c =>
    rw [hs] at hsign
    exact if_pos (hsign c rfl)
  | none =>
    obtain ⟨c, cs, hc⟩ := List.exists_cons_of_ne_nil hne
    have hd : c.isDigit = true := hdigits c (by rw [hc]; exact List.mem_cons_self)
    rw [hc]
    refine if_neg ?_
    rintro (rfl | rfl) <;> cases hd

/-- The digits behind an exponent are taken into it. -/
theorem scanExponent_append {x : Exponent} (h : x.WellFormed) (behind : List Char) :
    scanExponent (x.text ++ behind) =
      (some { x with digits := x.digits ++ behind.takeWhile Char.isDigit }, behind.dropWhile Char.isDigit) := by
  have hd := h.2.2.2
  have hne : x.digits ++ behind.takeWhile Char.isDigit ≠ [] := List.append_ne_nil_of_left_ne_nil h.2.2.1 _
  simp only [Exponent.text, List.cons_append, List.append_assoc, scanExponent, scanSign_append h,
    List.takeWhile_append_of_pos hd, List.dropWhile_append_of_pos hd]
  rw [if_pos ⟨h.1, hne⟩]

theorem scanFraction_append {fraction : Option (List Char)} (h : ∀ digits ∈ fraction, ∀ c ∈ digits, c.isDigit = true)
    {behind : List Char} (hstop : ∀ c ∈ behind.head?, c.isDigit = false ∧ c ≠ '.') :
    scanFraction (fractionText fraction ++ behind) = (fraction, behind) := by
  cases fraction with
  | some digits =>
    have hd := h digits rfl
    have hdigit : ∀ c ∈ behind.head?, c.isDigit = false := fun c hc => (hstop c hc).1
    simp only [fractionText, List.cons_append, scanFraction, takeWhile_digits hd hdigit, dropWhile_digits hd hdigit]
  | none =>
    rw [fractionText, List.nil_append]
    unfold scanFraction
    split
    · exact absurd rfl (hstop '.' rfl).2
    · rfl

theorem stop_fractionText (fraction : Option (List Char)) {behind : List Char}
    (hstop : ∀ c ∈ behind.head?, c.isDigit = false ∧ c ≠ '.') :
    ∀ c ∈ (fractionText fraction ++ behind).head?, c.isDigit = false := by
  cases fraction with
  | some digits =>
    intro c hc
    obtain rfl := Option.some.inj hc
    rfl
  | none => exact fun c hc => (hstop c hc).1

/-- Neither digits nor a fraction go on into the exponent. -/
theorem Exponent.WellFormed.stop {x : Exponent} (h : x.WellFormed) (behind : List Char) :
    ∀ c ∈ (x.text ++ behind).head?, c.isDigit = false ∧ c ≠ '.' := by
  intro c hc
  obtain rfl := Option.some.inj hc
  rcases h.1 with he | he <;> rw [he] <;> decide

theorem scanExponent_exponentText {x : Option Exponent} (h : ∀ y ∈ x, y.WellFormed) :
    scanExponent (exponentText x) = (x, []) := by
  cases x with
  | none => rfl
  | some y =>
    have hy := scanExponent_append (h y rfl) []
    rwa [List.append_nil, List.takeWhile_nil, List.append_nil] at hy

theorem stop_exponentText {x : Option Exponent} (h : ∀ y ∈ x, y.WellFormed) :
    ∀ c ∈ (exponentText x).head?, c.isDigit = false ∧ c ≠ '.' := by
  cases x with
  | none =>
    intro c hc
    cases hc
  | some y =>
    have hstop := (h y rfl).stop []
    rwa [List.append_nil] at hstop

/-- The scan takes a literal back. -/
theorem scan?_text {l : Literal} (h : l.WellFormed) : scan? l.text = some (l, []) := by
  have hend := stop_exponentText h.exponent
  have hstop := stop_fractionText l.fraction hend
  have hdigit : ¬ (l.whole = [] ∧ l.fraction.getD [] = []) := by
    rintro ⟨hw, hf⟩
    rcases h.digit with hne | ⟨digits, hd, hne⟩
    · exact hne hw
    · rw [Option.mem_def] at hd
      rw [hd] at hf
      exact hne hf
  simp only [scan?, text, takeWhile_digits h.whole hstop, dropWhile_digits h.whole hstop,
    scanFraction_append h.fraction hend, scanExponent_exponentText h.exponent]
  rw [if_neg hdigit]

theorem text_injective {l l' : Literal} (h : l.WellFormed) (h' : l'.WellFormed) (ht : l.text = l'.text) : l = l' := by
  have hscan := scan?_text h
  rw [ht, scan?_text h'] at hscan
  exact (Prod.mk.inj (Option.some.inj hscan)).1.symm

theorem isAlpha_of_isDigit {c : Char} (h : c.isDigit = true) : c.isAlpha = false := by
  have hnine : c.toNat ≤ 57 := (Char.isDigit_iff_toNat.mp h).2
  rw [Bool.eq_false_iff]
  intro ha
  rcases (Bool.or_eq_true _ _).mp ha with hupper | hlower
  · have hle : 65 ≤ c.toNat := UInt32.le_iff_toNat_le.mp (of_decide_eq_true hupper).1
    omega
  · have hle : 97 ≤ c.toNat := UInt32.le_iff_toNat_le.mp (of_decide_eq_true ((Bool.and_eq_true _ _).mp hlower).1)
    omega

theorem plain_of_isDigit {c : Char} (h : c.isDigit = true) : c.isAlpha = false ∧ isBlank c = false := by
  refine ⟨isAlpha_of_isDigit h, Bool.eq_false_iff.mpr fun hb => ?_⟩
  rw [isDigit_of_isBlank hb] at h
  cases h

/-- A literal begins with a digit or a point. -/
theorem text_eq_cons {l : Literal} (h : l.WellFormed) :
    ∃ c cs, l.text = c :: cs ∧ c.isAlpha = false ∧ isBlank c = false := by
  rcases hw : l.whole with _ | ⟨c, cs⟩
  · rcases h.digit with hne | ⟨digits, hd, -⟩
    · exact absurd hw hne
    · rw [Option.mem_def] at hd
      exact ⟨'.', digits ++ exponentText l.exponent, by rw [text, hw, hd]; rfl, rfl, rfl⟩
  · refine ⟨c, cs ++ (fractionText l.fraction ++ exponentText l.exponent), by rw [text, hw]; rfl, ?_⟩
    exact plain_of_isDigit (h.whole c (by rw [hw]; exact List.mem_cons_self))

/-- A literal that stands alone is one lexeme. -/
theorem all_text {l : Literal} (h : l.WellFormed) : Lexeme.all l.text = [.token (.number l.value)] := by
  obtain ⟨c, cs, ht, ha, hb⟩ := text_eq_cons h
  have hs := scan?_text h
  rw [ht] at hs
  have hn : Lexeme.next? l.text = some (.token (.number l.value), []) := by
    rw [ht, Lexeme.next?, List.dropWhile_cons_of_neg (by rw [hb]; exact Bool.false_ne_true)]
    simp only [Lexeme.head, ha, hs, Bool.false_eq_true, if_false]
  rw [Lexeme.all_of_some hn, Lexeme.all_nil]

/-! ## Written forms -/

/-- The text is a literal of that number. -/
def Denotes (cs : List Char) (x : ℚ) : Prop := ∃ l : Literal, l.WellFormed ∧ l.text = cs ∧ l.toDecimal.value = x

/-- Digits alone. -/
theorem denotes_digits {digits : List Char} (hd : ∀ c ∈ digits, c.isDigit = true) (hne : digits ≠ []) :
    Denotes digits (⟨Nat.ofDigitChars 10 digits 0, 0⟩ : Decimal).value := by
  refine ⟨⟨digits, none, none⟩, ⟨hd, ?_, .inl hne, ?_⟩, ?_, ?_⟩
  · intro _ h
    cases h
  · intro _ h
    cases h
  · simp only [text, fractionText, exponentText, List.append_nil]
  · simp [toDecimal]

/-- Digits before a point and behind it. -/
theorem denotes_point {whole fraction : List Char} (hw : ∀ c ∈ whole, c.isDigit = true) (hne : whole ≠ [])
    (hf : ∀ c ∈ fraction, c.isDigit = true) :
    Denotes (whole ++ '.' :: fraction)
      (⟨Nat.ofDigitChars 10 (whole ++ fraction) 0, -fraction.length⟩ : Decimal).value := by
  refine ⟨⟨whole, some fraction, none⟩, ⟨hw, ?_, .inl hne, ?_⟩, ?_, ?_⟩
  · intro digits h
    obtain rfl := Option.some.inj h
    exact hf
  · intro _ h
    cases h
  · simp only [text, fractionText, exponentText, List.append_nil]
  · simp [toDecimal]

end Literal

namespace Decimal

open Literal

theorem isDigit_of_mem_digits (d : Decimal) : ∀ c ∈ d.digits, c.isDigit = true :=
  fun _ h => Nat.isDigit_of_mem_toDigits (by decide) (by decide) h

theorem digits_ne_nil (d : Decimal) : d.digits ≠ [] := List.length_pos_iff.mp (length_toDigits_pos d.coefficient)

theorem ofDigitChars_digits (d : Decimal) : Nat.ofDigitChars 10 d.digits 0 = d.coefficient :=
  Nat.ofDigitChars_toDigits (by decide) (by decide)

theorem denotes_positional (d : Decimal) : Denotes d.positional d.value := by
  have hdigits := d.isDigit_of_mem_digits
  have hzero : ∀ n, ∀ c ∈ List.replicate n '0', c.isDigit = true := by
    intro n c hc
    obtain rfl := List.eq_of_mem_replicate hc
    rfl
  unfold positional
  split
  · -- zeros stand for the exponent
    rename_i zeros he
    have hden := denotes_digits (List.forall_mem_append.mpr ⟨hdigits, hzero zeros⟩)
      fun h => d.digits_ne_nil (List.append_eq_nil_iff.mp h).1
    have hvalue : (⟨10 ^ zeros * d.coefficient, 0⟩ : Decimal).value = d.value := by
      simp [value, he]
      ring
    rwa [Nat.ofDigitChars_append, ofDigitChars_digits, Nat.ofDigitChars_replicate_zero, hvalue] at hden
  · rename_i n he
    have hexponent : -((n + 1 : Nat) : Int) = d.exponent := he.symm
    dsimp only
    split
    · -- the point stands between the digits
      rename_i hn
      have hwhole : d.digits.take (d.digits.length - (n + 1)) ≠ [] := by
        refine List.ne_nil_of_length_pos ?_
        rw [List.length_take]
        omega
      have hfraction : ∀ c ∈ d.digits.drop (d.digits.length - (n + 1)), c.isDigit = true :=
        fun c hc => hdigits c (List.mem_of_mem_drop hc)
      have hden := denotes_point (fun c hc => hdigits c (List.mem_of_mem_take hc)) hwhole hfraction
      have hlength : (d.digits.drop (d.digits.length - (n + 1))).length = n + 1 := by
        rw [List.length_drop]
        omega
      rwa [List.take_append_drop, ofDigitChars_digits, hlength, hexponent] at hden
    · -- the point and zeros stand in front of them
      rename_i hn
      have hden := denotes_point (hzero 1) (List.cons_ne_nil _ _)
        (List.forall_mem_append.mpr ⟨hzero (n + 1 - d.digits.length), hdigits⟩)
      have hlength : (List.replicate (n + 1 - d.digits.length) '0' ++ d.digits).length = n + 1 := by
        rw [List.length_append, List.length_replicate]
        omega
      have hfront : Nat.ofDigitChars 10 (List.replicate 1 '0') 0 = 0 := rfl
      rwa [Nat.ofDigitChars_append, Nat.ofDigitChars_append, hfront, Nat.ofDigitChars_replicate_zero, Nat.mul_zero,
        ofDigitChars_digits, hlength, hexponent] at hden

/-- The exponent of the scientific form is a sign and at least two digits. -/
theorem exponentText_eq_cons (x : Int) :
    ∃ digits, exponentText x = (if x < 0 then '-' else '+') :: digits ∧ (∀ c ∈ digits, c.isDigit = true) ∧
      2 ≤ digits.length ∧ Nat.ofDigitChars 10 digits 0 = x.natAbs := by
  have hdigits : ∀ c ∈ Nat.toDigits 10 x.natAbs, c.isDigit = true :=
    fun _ h => Nat.isDigit_of_mem_toDigits (by decide) (by decide) h
  have hvalue : Nat.ofDigitChars 10 (Nat.toDigits 10 x.natAbs) 0 = x.natAbs :=
    Nat.ofDigitChars_toDigits (by decide) (by decide)
  have hpos := length_toDigits_pos x.natAbs
  by_cases hone : (Nat.toDigits 10 x.natAbs).length < 2
  · refine ⟨'0' :: Nat.toDigits 10 x.natAbs, by simp only [exponentText, if_pos hone], ?_, ?_, ?_⟩
    · exact List.forall_mem_cons.mpr ⟨rfl, hdigits⟩
    · rw [List.length_cons]
      omega
    · rw [Nat.ofDigitChars_cons]
      exact hvalue
  · exact ⟨_, by simp only [exponentText, if_neg hone], hdigits, Nat.le_of_not_lt hone, hvalue⟩

/-- The exponent of the scientific form. -/
theorem exponentText_eq (x : Int) :
    ∃ y : Literal.Exponent, y.WellFormed ∧ y.text = 'e' :: exponentText x ∧ y.value = x := by
  obtain ⟨digits, htext, hdigits, hlength, hvalue⟩ := exponentText_eq_cons x
  have hne : digits ≠ [] := List.ne_nil_of_length_pos (by omega)
  refine ⟨⟨'e', some (if x < 0 then '-' else '+'), digits⟩, ⟨.inl rfl, ?_, hne, hdigits⟩, ?_, ?_⟩
  · intro c hc
    obtain rfl := Option.some.inj hc
    split
    · exact .inr rfl
    · exact .inl rfl
  · rw [htext]
    rfl
  · simp only [Literal.Exponent.value, hvalue]
    by_cases hx : x < 0
    · rw [if_pos hx, if_pos rfl]
      omega
    · rw [if_neg hx, if_neg (by decide)]
      omega

theorem denotes_scientific (d : Decimal) : Denotes d.scientific d.value := by
  have hdigits := d.isDigit_of_mem_digits
  have hpos : 0 < d.digits.length := length_toDigits_pos d.coefficient
  obtain ⟨x, hx, htext, hvalue⟩ := exponentText_eq d.decade
  generalize hf : (if (d.digits.drop 1).isEmpty then none else some (d.digits.drop 1)) = fraction
  have hfraction : (∀ digits ∈ fraction, digits = d.digits.drop 1) ∧ fraction.getD [] = d.digits.drop 1 ∧
      fractionText fraction = if (d.digits.drop 1).isEmpty then [] else '.' :: d.digits.drop 1 := by
    subst hf
    split
    · rename_i he
      refine ⟨?_, (List.isEmpty_iff.mp he).symm, rfl⟩
      intro _ h
      cases h
    · exact ⟨fun digits h => (Option.some.inj h).symm, rfl, rfl⟩
  obtain ⟨hmem, hgetD, hftext⟩ := hfraction
  refine ⟨⟨d.digits.take 1, fraction, some x⟩, ⟨?_, ?_, ?_, ?_⟩, ?_, ?_⟩
  · exact fun c hc => hdigits c (List.mem_of_mem_take hc)
  · intro digits hd c hc
    rw [hmem digits hd] at hc
    exact hdigits c (List.mem_of_mem_drop hc)
  · refine .inl (List.ne_nil_of_length_pos ?_)
    rw [List.length_take]
    omega
  · intro y hy
    obtain rfl := Option.some.inj hy
    exact hx
  · simp only [text, Literal.exponentText, hftext, htext, scientific, List.append_assoc]
  · have hexponent : d.decade - ((d.digits.drop 1).length : Int) = d.exponent := by
      rw [decade, digitCount_eq, List.length_drop]
      exact Int.add_sub_cancel _ _
    simp only [toDecimal, hgetD, List.take_append_drop, ofDigitChars_digits, Option.map_some, Option.getD_some, hvalue,
      hexponent]

end Decimal

end Reckoner
