/-
  Reckoner.Proofs.LiteralValues — every literal is read as the number nearest to what it spells.

  What a literal spells is told from its parts: the whole digits, those behind the point as so many
  tenths, hundredths and so on, and a power of ten. However many digits it has and however far its
  exponent goes, it is one lexeme, a number and no mistake, and that number is rounded once.

  - `amount_eq`: what a literal spells is what the scan makes of it.
  - `reads_as_nearest`: the number that a literal is read as.
-/

import Reckoner.Proofs.TiesToEven
import Reckoner.Proofs.Tiling

namespace Reckoner

namespace Literal

/-! ## What is spelled -/

/-- The rational that a literal spells. -/
def amount (l : Literal) : ℚ :=
  let fraction := l.fraction.getD []
  (Nat.ofDigitChars 10 l.whole 0 + Nat.ofDigitChars 10 fraction 0 / 10 ^ fraction.length) *
    10 ^ (l.exponent.map Exponent.value).getD 0

/-- The digits on both sides of the point are those of one coefficient. -/
theorem amount_eq (l : Literal) : l.amount = l.toDecimal.value := by
  have hten : (10 : ℚ) ≠ 0 := by norm_num
  unfold amount toDecimal Decimal.value
  dsimp only
  generalize l.fraction.getD [] = fraction
  generalize (l.exponent.map Exponent.value).getD 0 = e
  have hcoefficient : Nat.ofDigitChars 10 (l.whole ++ fraction) 0 =
      10 ^ fraction.length * Nat.ofDigitChars 10 l.whole 0 + Nat.ofDigitChars 10 fraction 0 := by
    rw [Nat.ofDigitChars_append]
    exact Nat.ofDigitChars_eq_ofDigitChars_zero
  rw [hcoefficient, zpow_sub₀ hten, zpow_natCast]
  push_cast
  field_simp

theorem value_eq (l : Literal) : l.value = .nearest false l.toDecimal.quotient.1 l.toDecimal.quotient.2 :=
  l.toDecimal.toBinary64_eq

/-- Every match of the expression for literals is one literal and is read as one number, alone and
    wherever it is a lexeme of a text. The number is the nearest to what is spelled, a tie going to the
    even one; zero up to `2 ^ -1075`, and infinite from `2 ^ 1024 - 2 ^ 970`. -/
theorem reads_as_nearest (cs : List Char) (h : cs ∈ Pattern.number.matches') :
    ∃ (l : Literal) (v : Binary64), (∀ l' : Literal, l'.WellFormed ∧ l'.text = cs ↔ l' = l) ∧
      Lexeme.all cs = [.token (.number v)] ∧
      (∀ text, ∀ span ∈ Lexeme.spans text, span.text = cs → span.lexeme = .token (.number v)) ∧
      (v = .finite false .zero ↔ l.amount ≤ 2 ^ (-1075 : Int)) ∧
      (v = .infinite false ↔ 2 ^ (1024 : Int) - 2 ^ (970 : Int) ≤ l.amount) ∧
      (l.amount < 2 ^ (1024 : Int) - 2 ^ (970 : Int) → ∃ m, v = .finite false m ∧ m.IsNearest l.amount) := by
  obtain ⟨l, hl, rfl⟩ := Pattern.mem_number.mp h
  have hquotient := l.toDecimal.value_quotient
  rw [← amount_eq] at hquotient
  refine ⟨l, l.value, ?_, all_text hl, ?_, ?_⟩
  · intro l'
    constructor
    · rintro ⟨hl', ht⟩
      exact text_injective hl' hl ht
    · rintro rfl
      exact ⟨hl, rfl⟩
  · intro text span hspan ht
    obtain ⟨before, rest, -, -, -, hlongest⟩ := (Lexeme.tiles_spans text).stands hspan
    rw [ht] at hlongest
    exact hlongest.eq_token (.number hl rfl)
  · rw [value_eq]
    exact Binary64.nearest_rounds false l.toDecimal.quotient_pos hquotient

/-- Halfway between two numbers: one more than `2 ^ 53`, written with a point and an exponent. -/
theorem reads_as_nearest_halfway :
    "900719925474099.3E+01".toList ∈ Pattern.number.matches' ∧
      Lexeme.all "900719925474099.3E+01".toList = [.token (.number (.ofBits 0x4340000000000000))] ∧
      ∃ m, Binary64.ofBits 0x4340000000000000 = .finite false m ∧ m.IsNearest 9007199254740993 := by
  let tie : Literal := ⟨"900719925474099".toList, some ['3'], some ⟨'E', some '+', ['0', '1']⟩⟩
  have htie : tie.WellFormed := by
    refine ⟨List.all_eq_true.mp (by decide), ?_, .inl (by decide), ?_⟩
    · rintro digits ⟨⟩
      exact List.all_eq_true.mp (by decide)
    · rintro x ⟨⟩
      exact ⟨.inr rfl, by simp, by decide, List.all_eq_true.mp (by decide)⟩
  have hmatch : "900719925474099.3E+01".toList ∈ Pattern.number.matches' := Pattern.mem_number.mpr ⟨tie, htie, rfl⟩
  have hread : Lexeme.all "900719925474099.3E+01".toList = [.token (.number (.ofBits 0x4340000000000000))] := by
    decide +kernel
  obtain ⟨l, v, hone, hall, -, -, hinfinite, hnearest⟩ := reads_as_nearest _ hmatch
  obtain rfl := (hone tie).mp ⟨htie, rfl⟩
  rw [hread] at hall
  obtain rfl := Token.number.inj (Lexeme.token.inj (List.cons.inj hall).1)
  have hamount : tie.amount = 9007199254740993 := by
    have hwhole : Nat.ofDigitChars 10 tie.whole 0 = 900719925474099 := by decide
    have hfraction : Nat.ofDigitChars 10 (tie.fraction.getD []) 0 = 3 := by decide
    have hlength : (tie.fraction.getD []).length = 1 := rfl
    have hexponent : (tie.exponent.map Exponent.value).getD 0 = 1 := by decide
    rw [amount, hwhole, hfraction, hlength, hexponent]
    norm_num
  rw [hamount] at hinfinite hnearest
  refine ⟨hmatch, hread, hnearest (not_le.mp fun hle => ?_)⟩
  exact absurd (hinfinite.mpr hle) (by decide)

end Literal

end Reckoner
