/-
  Reckoner.Proofs.WholeNumbers — whole numbers are calculated exactly.

  Every whole number up to `2 ^ 53` is a number of the calculator, and its own nearest one. So sums,
  products, remainders and powers are exact as long as no number on the way is greater
  (`Formula.Fits`), and a text that spells such a formula has its value (`evaluate_formula`).
-/

import Reckoner.Proofs.Evaluated
import Reckoner.Proofs.Nearest

namespace Reckoner

open Grammar

attribute [local instance (2000)] instPowNat

/-- Up to here every whole number is a number of the calculator. -/
def maxWhole : Nat := 2 ^ (53 : Nat)

/-! ## Whole numbers -/

theorem Magnitude.exists_whole {n : Nat} (hn : n ≤ maxWhole) : ∃ m : Magnitude, m.units = n * unitsPerOne := by
  unfold unitsPerOne
  generalize hk : 1074 = k
  exact exists_units hn (by omega)

namespace Binary64

/-- The number is the whole number `i`; a zero may have either sign. -/
def IsWhole (v : Binary64) (i : Int) : Prop :=
  ∃ negative m, v = .finite negative m ∧ signedUnits negative m = i * unitsPerOne

theorem sign_of_signed {negative : Bool} {m : Magnitude} {i : Int}
    (h : signedUnits negative m = i * unitsPerOne) :
    m.units = i.natAbs * unitsPerOne ∧ i = if negative then -(i.natAbs : Int) else i.natAbs := by
  have hone := unitsPerOne_pos
  generalize unitsPerOne = one at h hone
  have hone' : (0 : Int) < one := by exact_mod_cast hone
  unfold signedUnits at h
  cases negative with
  | false =>
    have h : (m.units : Int) = i * one := h
    have hi : 0 ≤ i := by
      by_contra hneg
      have hlt := Int.mul_neg_of_neg_of_pos (Int.lt_of_not_ge hneg) hone'
      omega
    have habs : (i.natAbs : Int) = i := Int.natAbs_of_nonneg hi
    refine ⟨?_, habs.symm⟩
    rw [← habs] at h
    exact_mod_cast h
  | true =>
    have h : -(m.units : Int) = i * one := h
    have hi : i ≤ 0 := by
      by_contra hpos
      have hlt := Int.mul_pos (Int.lt_of_not_ge hpos) hone'
      omega
    have habs : (i.natAbs : Int) = -i := Int.ofNat_natAbs_of_nonpos hi
    refine ⟨?_, by simp [habs]⟩
    have hm : (m.units : Int) = i.natAbs * one := by
      rw [habs, Int.neg_mul, ← h, Int.neg_neg]
    exact_mod_cast hm

theorem signed_of_units {negative : Bool} {m : Magnitude} {n one : Nat} (h : m.units = n * one) :
    signedUnits negative m = (if negative then -(n : Int) else n) * one := by
  rw [signedUnits, h, Int.natCast_mul]
  cases negative with
  | false => rfl
  | true => exact (Int.neg_mul _ _).symm

/-- A whole number is its own nearest one. -/
theorem isWhole_nearest (negative : Bool) {i : Int} (hi : i = if negative then -(i.natAbs : Int) else i.natAbs)
    (hn : i.natAbs ≤ maxWhole) {d : Nat} (hd : 0 < d) :
    (nearest negative (i.natAbs * unitsPerOne * d) d).IsWhole i := by
  obtain ⟨m, hm⟩ := Magnitude.exists_whole hn
  refine ⟨negative, m, by rw [← hm, nearest_units negative m hd], ?_⟩
  rw [signed_of_units hm, ← hi]

theorem isWhole_zero (negative : Bool) : (finite negative .zero).IsWhole 0 := by
  refine ⟨negative, .zero, rfl, ?_⟩
  rw [Int.zero_mul]
  cases negative <;> rfl

/-- A whole number that is spelled out is read as itself. -/
theorem isWhole_decimal {n : Nat} (hn : n ≤ maxWhole) : (⟨n, 0⟩ : Decimal).toBinary64.IsWhole n := by
  show (if n = 0 then zero else if 400 ≤ 0 then _ else nearest false (n * 10 ^ 0 * unitsPerOne) 1).IsWhole n
  by_cases hz : n = 0
  · rw [if_pos hz, hz]
    exact isWhole_zero false
  · rw [if_neg hz, if_neg (by decide), Nat.pow_zero, Nat.mul_one, ← Nat.mul_one (n * unitsPerOne)]
    exact isWhole_nearest false (i := n) rfl hn Nat.one_pos

theorem isWhole_one : one.IsWhole 1 := by
  have h : (⟨1, 0⟩ : Decimal).toBinary64 = one := by decide +kernel
  exact h ▸ isWhole_decimal (n := 1) (by decide)

variable {v w : Binary64} {i j : Int}

theorem IsWhole.neg (h : v.IsWhole i) : v.neg.IsWhole (-i) := by
  obtain ⟨a, m, rfl, hm⟩ := h
  refine ⟨!a, m, rfl, ?_⟩
  rw [Int.neg_mul, ← hm]
  cases a <;> simp [signedUnits]

theorem IsWhole.add (h : v.IsWhole i) (h' : w.IsWhole j) (hn : (i + j).natAbs ≤ maxWhole) :
    (v.add w).IsWhole (i + j) := by
  obtain ⟨a, m, rfl, hm⟩ := h
  obtain ⟨b, n, rfl, hn'⟩ := h'
  have hsum : signedUnits a m + signedUnits b n = (i + j) * unitsPerOne := by rw [hm, hn', Int.add_mul]
  unfold add
  simp only [hsum]
  have hone : (0 : Int) < unitsPerOne := by exact_mod_cast unitsPerOne_pos
  by_cases hz : i + j = 0
  · rw [hz, Int.zero_mul, if_pos rfl]
    exact isWhole_zero _
  · have hne : (i + j) * unitsPerOne ≠ 0 := Int.mul_ne_zero hz (Int.ne_of_gt hone)
    rw [if_neg hne, Int.natAbs_mul, Int.natAbs_natCast]
    have hsign : decide ((i + j) * unitsPerOne < 0) = decide (i + j < 0) := by
      simp only [Int.mul_neg_iff, decide_eq_decide]
      omega
    have hw := isWhole_nearest (decide (i + j < 0)) (i := i + j) ?_ hn Nat.one_pos
    · rwa [hsign, ← Nat.mul_one (_ * unitsPerOne)]
    · split
      · rename_i h
        rw [decide_eq_true_eq] at h
        omega
      · rename_i h
        rw [decide_eq_true_eq] at h
        omega

theorem IsWhole.mul (h : v.IsWhole i) (h' : w.IsWhole j) (hn : (i * j).natAbs ≤ maxWhole) :
    (v.mul w).IsWhole (i * j) := by
  obtain ⟨a, m, rfl, hm⟩ := h
  obtain ⟨b, n, rfl, hn'⟩ := h'
  obtain ⟨hu, hi⟩ := sign_of_signed hm
  obtain ⟨hu', hj⟩ := sign_of_signed hn'
  have hproduct : m.units * n.units = (i * j).natAbs * unitsPerOne * unitsPerOne := by
    rw [hu, hu', Int.natAbs_mul]
    ring
  rw [mul_finite, hproduct]
  refine isWhole_nearest _ ?_ hn unitsPerOne_pos
  rw [Int.natAbs_mul, Int.natCast_mul]
  generalize (i.natAbs : Int) = x at hi ⊢
  generalize (j.natAbs : Int) = y at hj ⊢
  subst hi hj
  cases a <;> cases b <;> simp

theorem IsWhole.isZero (h : v.IsWhole i) : v.isZero = decide (i = 0) := by
  obtain ⟨a, m, rfl, hm⟩ := h
  obtain ⟨hu, -⟩ := sign_of_signed hm
  have hz : m = .zero ↔ i = 0 := by
    rw [← Magnitude.units_eq_zero, hu, Nat.mul_eq_zero, Int.natAbs_eq_zero]
    exact or_iff_left (Nat.ne_of_gt unitsPerOne_pos)
  rw [Binary64.isZero, Bool.eq_iff_iff, beq_iff_eq, decide_eq_true_eq, hz]

theorem IsWhole.remainder (h : v.IsWhole i) (h' : w.IsWhole j) (hi : i.natAbs ≤ maxWhole) (hj : j ≠ 0) :
    ∃ r, v.remainder w = .ok r ∧ r.IsWhole (i.tmod j) := by
  have hzero : w.isZero = false := by rw [h'.isZero, decide_eq_false hj]
  refine ⟨v.rem w, by rw [Binary64.remainder, hzero]; rfl, ?_⟩
  obtain ⟨a, m, rfl, hm⟩ := h
  obtain ⟨b, n, rfl, hn'⟩ := h'
  obtain ⟨hu, hsign⟩ := sign_of_signed hm
  obtain ⟨hu', -⟩ := sign_of_signed hn'
  have hn : n ≠ .zero := fun hn => by
    rw [hn] at hzero
    cases hzero
  have hw := isWhole_nearest a (i := i.tmod j) ?_ ?_ Nat.one_pos
  · rwa [rem, if_neg hn, hu, hu', Nat.mul_mod_mul_right, ← Int.natAbs_tmod, ← Nat.mul_one (_ * unitsPerOne)]
  · -- the remainder has the sign of the dividend
    cases a with
    | false =>
      have hnonneg : 0 ≤ i := by
        rw [hsign]
        exact Int.natCast_nonneg _
      exact (Int.natAbs_of_nonneg (Int.tmod_nonneg j hnonneg)).symm
    | true =>
      have hnonpos : 0 ≤ -i := by
        rw [if_pos rfl] at hsign
        omega
      have hrem := Int.tmod_nonneg j hnonpos
      rw [Int.neg_tmod] at hrem
      rw [if_pos rfl]
      omega
  · rw [Int.natAbs_tmod]
    exact Nat.le_trans (Nat.mod_le _ _) hi

theorem IsWhole.toExponent {n : Nat} (h : v.IsWhole n) (hn : n ≤ maxExponent) : v.toExponent = .ok n := by
  obtain ⟨a, m, rfl, hm⟩ := h
  obtain ⟨hu, hsign⟩ := sign_of_signed hm
  rw [Int.natAbs_natCast] at hu hsign
  have hdiv : m.units / unitsPerOne = n := by rw [hu, Nat.mul_div_cancel _ unitsPerOne_pos]
  have hmod : m.units % unitsPerOne = 0 := by rw [hu, Nat.mul_mod_left]
  have hneg : (a && decide (n ≠ 0)) = false := by
    cases a with
    | false => rfl
    | true =>
      simp only [if_true] at hsign
      simp
      omega
  unfold Binary64.toExponent
  simp only [hdiv, hmod, hneg]
  simp [Nat.not_lt_of_le hn]

/-- Every partial product is a whole number. -/
theorem IsWhole.multiply (hv : v.IsWhole i) {count : Nat} (hw : w.IsWhole j)
    (hn : ∀ k ≤ count, (j * i ^ k).natAbs ≤ maxWhole) : (multiply v w count).IsWhole (j * i ^ count) := by
  induction count generalizing w j with
  | zero => simpa [Binary64.multiply] using hw
  | succ count ih =>
    rw [Binary64.multiply]
    split
    · rename_i hs
      have hz : j = 0 := by
        have hfinite : w.isFinite = true := by
          obtain ⟨a, m, rfl, -⟩ := hw
          rfl
        rw [isSettled, hfinite, hw.isZero] at hs
        simpa using hs
      rw [hz, Int.zero_mul]
      exact hz ▸ hw
    · have hmul := hw.mul hv (by simpa using hn 1 (by omega))
      have hrest := ih hmul fun k hk => by
        have hfits := hn (k + 1) (by omega)
        rwa [pow_succ', ← mul_assoc] at hfits
      rwa [pow_succ', ← mul_assoc]

theorem IsWhole.power (h : v.IsWhole i) {n : Nat} (hn : ∀ k ≤ n, (i ^ k).natAbs ≤ maxWhole) :
    (v.power n).IsWhole (if i = 0 ∧ n = 0 then 0 else i ^ n) := by
  cases n with
  | zero =>
    rw [Binary64.power, h.isZero, pow_zero]
    by_cases hz : i = 0
    · rw [decide_eq_true hz, if_pos rfl, if_pos ⟨hz, rfl⟩]
      exact isWhole_zero false
    · rw [decide_eq_false hz, if_neg (by simp), if_neg fun h => hz h.1]
      exact isWhole_one
  | succ n =>
    rw [Binary64.power, if_neg (by simp), pow_succ']
    exact h.multiply h fun k hk => by
      rw [← pow_succ']
      exact hn (k + 1) (by omega)

end Binary64

/-! ## Formulas of whole numbers -/

inductive Formula where
  | number (n : Nat)
  | plus (f : Formula)
  | minus (f : Formula)
  | sum (op : SumOperator) (f g : Formula)
  | times (f g : Formula)
  | modulo (f g : Formula)
  | power (base : Formula) (exponent : Nat)

namespace Formula

/-- The value in whole numbers; a remainder has the sign of its dividend. -/
def value : Formula → Int
  | number n => n
  | plus f => f.value
  | minus f => -f.value
  | sum .plus f g => f.value + g.value
  | sum .minus f g => f.value - g.value
  | times f g => f.value * g.value
  | modulo f g => f.value.tmod g.value
  | power base exponent => if base.value = 0 ∧ exponent = 0 then 0 else base.value ^ exponent

/-- No literal, no value and no partial product of a power is past `maxWhole`, no divisor is zero,
    and no exponent too large. -/
def Fits : Formula → Prop
  | number n => n ≤ maxWhole
  | plus f => f.Fits
  | minus f => f.Fits
  | sum op f g => f.Fits ∧ g.Fits ∧ (sum op f g).value.natAbs ≤ maxWhole
  | times f g => f.Fits ∧ g.Fits ∧ (times f g).value.natAbs ≤ maxWhole
  | modulo f g => f.Fits ∧ g.Fits ∧ g.value ≠ 0
  | power base exponent =>
    base.Fits ∧ exponent ≤ maxExponent ∧ ∀ k ≤ exponent, (base.value ^ k).natAbs ≤ maxWhole

instance decidableFits : (f : Formula) → Decidable f.Fits
  | number n => inferInstanceAs (Decidable (n ≤ maxWhole))
  | plus f => decidableFits f
  | minus f => decidableFits f
  | sum op f g =>
    have := decidableFits f
    have := decidableFits g
    inferInstanceAs (Decidable (f.Fits ∧ g.Fits ∧ (sum op f g).value.natAbs ≤ maxWhole))
  | times f g =>
    have := decidableFits f
    have := decidableFits g
    inferInstanceAs (Decidable (f.Fits ∧ g.Fits ∧ (times f g).value.natAbs ≤ maxWhole))
  | modulo f g =>
    have := decidableFits f
    have := decidableFits g
    inferInstanceAs (Decidable (f.Fits ∧ g.Fits ∧ g.value ≠ 0))
  | power base exponent =>
    have := decidableFits base
    inferInstanceAs
      (Decidable (base.Fits ∧ exponent ≤ maxExponent ∧ ∀ k ≤ exponent, (base.value ^ k).natAbs ≤ maxWhole))

theorem Fits.natAbs_value_le {f : Formula} (h : f.Fits) : f.value.natAbs ≤ maxWhole := by
  induction f with
  | number n => exact h
  | plus f ih => exact ih h
  | minus f ih =>
    rw [value, Int.natAbs_neg]
    exact ih h
  | sum op f g ihf ihg => exact h.2.2
  | times f g ihf ihg => exact h.2.2
  | modulo f g ihf ihg =>
    rw [value, Int.natAbs_tmod]
    exact Nat.le_trans (Nat.mod_le _ _) (ihf h.1)
  | power base exponent ih =>
    rw [value]
    split
    · decide
    · exact h.2.2 exponent (Nat.le_refl _)

/-- The token of a literal that is digits only. -/
def literal (digits : List Char) : Token := .number (Literal.value ⟨digits, none, none⟩)

/-- The tokens that spell a formula: with the brackets that the levels of the grammar ask for, and
    any more of them, and numbers by their digits. -/
inductive Spells : Calculation.Level → Formula → List Token → Prop
  | number (digits : List Char) : Spells .primary (.number (Nat.ofDigitChars 10 digits 0)) [literal digits]
  | group {f : Formula} {ts : List Token} (h : Spells .expression f ts) :
    Spells .primary f (.symbol .opening :: (ts ++ [.symbol .closing]))
  | plus {f : Formula} {ts : List Token} (h : Spells .primary f ts) : Spells .primary (.plus f) (.symbol .plus :: ts)
  | minus {f : Formula} {ts : List Token} (h : Spells .primary f ts) :
    Spells .primary (.minus f) (.symbol .minus :: ts)
  | power {f : Formula} {ts : List Token} (h : Spells .expression f ts) (digits : List Char) :
    Spells .primary (.power f (Nat.ofDigitChars 10 digits 0))
      (.keyword .power :: .symbol .opening :: (ts ++ [.symbol .comma, literal digits, .symbol .closing]))
  | factor {f : Formula} {ts : List Token} (h : Spells .primary f ts) : Spells .term f ts
  | times {f g : Formula} {ts us : List Token} (h : Spells .term f ts) (h' : Spells .primary g us) :
    Spells .term (.times f g) (ts ++ .symbol .star :: us)
  | modulo {f g : Formula} {ts us : List Token} (h : Spells .term f ts) (h' : Spells .primary g us) :
    Spells .term (.modulo f g) (ts ++ .symbol .percent :: us)
  | term {f : Formula} {ts : List Token} (h : Spells .term f ts) : Spells .expression f ts
  | sum (op : SumOperator) {f g : Formula} {ts us : List Token} (h : Spells .expression f ts) (h' : Spells .term g us) :
    Spells .expression (.sum op f g) (ts ++ .symbol op.symbol :: us)

/-! ## Their calculation -/

theorem isWhole_literal (digits : List Char) (h : Nat.ofDigitChars 10 digits 0 ≤ maxWhole) :
    (Literal.value ⟨digits, none, none⟩).IsWhole (Nat.ofDigitChars 10 digits 0) := by
  have hd : Literal.toDecimal ⟨digits, none, none⟩ = ⟨Nat.ofDigitChars 10 digits 0, 0⟩ := by simp [Literal.toDecimal]
  rw [Literal.value, hd]
  exact Binary64.isWhole_decimal h

/-- The tokens are the yield of a tree at that level of the grammar, whose value is the whole number `i`. -/
def Derived (b : Bindings) (i : Int) (ts : List Token) : Calculation.Level → Prop
  | .primary => ∃ p : Primary, ∃ v, p.yield = ts ∧ p.value b = .ok v ∧ v.IsWhole i
  | .term => ∃ t : Term, ∃ v, t.yield = ts ∧ t.value b = .ok v ∧ v.IsWhole i
  | .expression => ∃ e : Expression, ∃ v, e.yield = ts ∧ e.value b = .ok v ∧ v.IsWhole i

theorem derived_of_spells (b : Bindings) {level : Calculation.Level} {f : Formula} {ts : List Token}
    (h : Spells level f ts) (hf : f.Fits) : Derived b f.value ts level := by
  induction h with
  | number digits => exact ⟨.number _, _, rfl, rfl, isWhole_literal digits hf⟩
  | group h ih =>
    obtain ⟨e, v, rfl, hv, hw⟩ := ih hf
    exact ⟨.group e, v, rfl, hv, hw⟩
  | plus h ih =>
    obtain ⟨p, v, rfl, hv, hw⟩ := ih hf
    exact ⟨.plus p, v, rfl, hv, hw⟩
  | minus h ih =>
    obtain ⟨p, v, rfl, hv, hw⟩ := ih hf
    exact ⟨.minus p, v.neg, rfl, by rw [Primary.value, hv]; rfl, hw.neg⟩
  | power h digits ih =>
    obtain ⟨hbase, hx, hn⟩ := hf
    obtain ⟨e, v, rfl, hv, hw⟩ := ih hbase
    have hexponent := (isWhole_literal digits (Nat.le_trans hx (by decide))).toExponent hx
    refine ⟨.power e (.number (Literal.value ⟨digits, none, none⟩)), _, rfl, ?_, hw.power hn⟩
    rw [Primary.value, hv]
    simp only [Exponent.value, hexponent]
    rfl
  | factor h ih =>
    obtain ⟨p, v, rfl, hv, hw⟩ := ih hf
    exact ⟨.of p .none, v, by simp [Term.yield, Products.yield], by rw [Term.value, hv]; rfl, hw⟩
  | times h h' ih ih' =>
    obtain ⟨hl, hr, hn⟩ := hf
    obtain ⟨t, v, rfl, hv, hw⟩ := ih hl
    obtain ⟨p, w, rfl, hv', hw'⟩ := ih' hr
    refine ⟨t.snoc .times p, v.mul w, t.yield_snoc .times p, ?_, hw.mul hw' hn⟩
    rw [Term.value_snoc, hv, hv']
    rfl
  | modulo h h' ih ih' =>
    obtain ⟨hl, hr, hn⟩ := hf
    obtain ⟨t, v, rfl, hv, hw⟩ := ih hl
    obtain ⟨p, w, rfl, hv', hw'⟩ := ih' hr
    obtain ⟨r, hrem, hwhole⟩ := hw.remainder hw' hl.natAbs_value_le hn
    refine ⟨t.snoc .modulo p, r, t.yield_snoc .modulo p, ?_, hwhole⟩
    rw [Term.value_snoc, hv, hv']
    exact hrem
  | term h ih =>
    obtain ⟨t, v, rfl, hv, hw⟩ := ih hf
    exact ⟨.of t .none, v, by simp [Expression.yield, Sums.yield], by rw [Expression.value, hv]; rfl, hw⟩
  | sum op h h' ih ih' =>
    obtain ⟨hl, hr, hn⟩ := hf
    obtain ⟨e, v, rfl, hv, hw⟩ := ih hl
    obtain ⟨t, w, rfl, hv', hw'⟩ := ih' hr
    refine ⟨e.snoc op t, op.apply v w, e.yield_snoc op t, by rw [Expression.value_snoc, hv, hv']; rfl, ?_⟩
    cases op with
    | plus => exact hw.add hw' hn
    | minus => exact hw.add hw'.neg hn

/-- A text whose tokens spell a formula that fits has one value, which is that of the formula in
    whole numbers. -/
theorem evaluate_formula {f : Formula} {ts : List Token} {text : String} (hs : Spells .expression f ts) (hf : f.Fits)
    (ht : Lexeme.all text.toList = ts.map .token) : ∃ v, evaluate text = .ok [v] ∧ v.IsWhole f.value := by
  obtain ⟨e, v, rfl, hv, hw⟩ := derived_of_spells .constants hs hf
  exact ⟨v, evaluate_expression ht hv, hw⟩

theorem evaluate_formula_negative_dividend :
    ∃ v, evaluate "-7 % 3 * (2 + pow(3, 2))" = .ok [v] ∧ v.IsWhole (-11) := by
  have hdividend := Spells.minus (.number ['7'])
  have hpower := Spells.power (.term (.factor (.number ['3']))) ['2']
  have hsum := (Spells.term (.factor (.number ['2']))).sum .plus (.factor hpower)
  have hs := (hdividend.factor.modulo (.number ['3'])).times hsum.group
  obtain ⟨v, hv, hw⟩ : ∃ v, evaluate "-7 % 3 * (2 + pow(3, 2))" = .ok [v] ∧ v.IsWhole (value _) :=
    evaluate_formula hs.term (by decide) (by decide +kernel)
  refine ⟨v, hv, ?_⟩
  rwa [show value _ = -11 by decide] at hw

end Formula

end Reckoner
