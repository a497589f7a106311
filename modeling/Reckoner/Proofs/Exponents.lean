/-
  Reckoner.Proofs.Exponents — an exponent is accepted by its value alone.

  Whether a number can be an exponent is looked up in its units. Here it is told from the rational
  that the number stands for: it is a whole number from zero to `2 ^ 20`, and each of the three
  mistakes has the numbers of its own. In a power the exponent is a literal or a variable; if its
  number is accepted, the calculation goes on as behind a literal with the value of the power, and
  otherwise it ends where the exponent was read.

  - `toExponent_of_whole`, `toExponent_of_fraction`: the exponent of a finite number.
  - `feed_call`: a power as far as its exponent.
  - `exponent_by_value`: which numbers are exponents, and what becomes of a power.
-/

import Reckoner.Proofs.Remainders
import Reckoner.Proofs.Thrifty
import Reckoner.Proofs.WholeNumbers
import Reckoner.Proofs.Worth

namespace Reckoner

attribute [local instance (2000)] instPowNat

open Grammar

/-! ## Whole numbers -/

namespace Magnitude

theorem value_eq_natCast {m : Magnitude} {n : Nat} : m.value = n ↔ m.units = n * unitsPerOne := by
  have hone : (unitsPerOne : ℚ) ≠ 0 := Nat.cast_ne_zero.mpr (Nat.ne_of_gt unitsPerOne_pos)
  rw [value, div_eq_iff hone, ← Nat.cast_mul, Nat.cast_inj]

/-- A magnitude is a whole number if its units make up so many ones. -/
theorem value_of_mod {m : Magnitude} (h : m.units % unitsPerOne = 0) : m.value = (m.units / unitsPerOne : Nat) :=
  value_eq_natCast.mpr (Nat.div_mul_cancel (Nat.dvd_of_mod_eq_zero h)).symm

end Magnitude

namespace Binary64

variable {v : Binary64}

/-- What becomes of a whole number as an exponent. -/
def wholeExponent (v : Binary64) (z : Int) : Except Mistake Nat :=
  if z < 0 then .error (.exponentNegative (max z (-2 ^ (63 : Nat))))
  else if 2 ^ (20 : Nat) < z then .error (.exponentTooLarge v)
  else .ok z.toNat

theorem rational?_finite {x : ℚ} (h : v.rational? = some x) :
    ∃ negative m, v = finite negative m ∧ x = if negative then -m.value else m.value := by
  cases v with
  | nan => cases h
  | infinite negative => cases h
  | finite negative m => exact ⟨negative, m, rfl, (Option.some.inj h).symm⟩

theorem rational?_none (h : v.rational? = none) : v = nan ∨ ∃ negative, v = infinite negative := by
  cases v with
  | nan => exact .inl rfl
  | infinite negative => exact .inr ⟨negative, rfl⟩
  | finite negative m => cases h

/-- The size of a whole number is a whole magnitude, and its sign is that of the number unless it is zero. -/
theorem units_of_whole {negative : Bool} {m : Magnitude} {z : Int}
    (h : (z : ℚ) = if negative then -m.value else m.value) :
    m.units = z.natAbs * unitsPerOne ∧ z = if negative then -(z.natAbs : Int) else z.natAbs := by
  have hm := m.value_nonneg
  have hsize : (z.natAbs : ℚ) = m.value := by
    rw [Nat.cast_natAbs, Int.cast_abs, h]
    cases negative <;> simp [abs_of_nonneg hm]
  have hvalue : (z : ℚ) = ((if negative then -(z.natAbs : Int) else z.natAbs : Int) : ℚ) := by
    rw [h, ← hsize]
    cases negative <;> simp
  exact ⟨Magnitude.value_eq_natCast.mp hsize.symm, Int.cast_injective hvalue⟩

theorem toExponent_of_whole {z : Int} (h : v.rational? = some (z : ℚ)) : v.toExponent = v.wholeExponent z := by
  obtain ⟨negative, m, rfl, hz⟩ := rational?_finite h
  obtain ⟨hunits, hsign⟩ := units_of_whole hz
  have hdiv : m.units / unitsPerOne = z.natAbs := by rw [hunits, Nat.mul_div_cancel _ unitsPerOne_pos]
  have hmod : m.units % unitsPerOne = 0 := by rw [hunits, Nat.mul_mod_left]
  unfold toExponent wholeExponent
  simp only [hdiv, hmod, ne_eq, not_true_eq_false, if_false]
  cases negative with
  | false =>
    simp only [Bool.false_eq_true, if_false] at hsign
    have hlow : ¬ z < 0 := by omega
    have hlimit : maxExponent < z.natAbs ↔ 2 ^ (20 : Nat) < z := by
      unfold maxExponent
      omega
    simp only [Bool.false_and, Bool.false_eq_true, if_false, hlow, hlimit]
    have htoNat : z.natAbs = z.toNat := by omega
    rw [htoNat]
  | true =>
    simp only [if_true] at hsign
    by_cases hzero : z = 0
    · subst hzero
      rfl
    · have hlow : z < 0 := by omega
      have hne : z.natAbs ≠ 0 := by omega
      simp only [Bool.true_and, hne, hlow, if_true, not_false_eq_true, decide_true, ← hsign]
      rfl

theorem wholeExponent_eq_ok {z : Int} {n : Nat} : v.wholeExponent z = .ok n ↔ z = n ∧ n ≤ 2 ^ (20 : Nat) := by
  unfold wholeExponent
  split
  · simp
    omega
  · split
    · simp
      omega
    · simp only [Except.ok.injEq]
      omega

theorem wholeExponent_eq_negative {z k : Int} :
    v.wholeExponent z = .error (.exponentNegative k) ↔ z < 0 ∧ k = max z (-2 ^ (63 : Nat)) := by
  unfold wholeExponent
  split
  · simp only [Except.error.injEq, Mistake.exponentNegative.injEq]
    omega
  · split <;> simp <;> omega

theorem wholeExponent_eq_tooLarge {z : Int} {w : Binary64} :
    v.wholeExponent z = .error (.exponentTooLarge w) ↔ w = v ∧ 2 ^ (20 : Nat) < z := by
  unfold wholeExponent
  split
  · simp
    omega
  · split
    · simp_all [eq_comm]
    · simp_all

theorem wholeExponent_ne_notWhole {z : Int} {w : Binary64} : v.wholeExponent z ≠ .error (.exponentNotWhole w) := by
  unfold wholeExponent
  split
  · simp
  · split <;> simp

theorem toExponent_of_fraction {x : ℚ} (h : v.rational? = some x) (hx : ∀ z : Int, x ≠ z) :
    v.toExponent = .error (.exponentNotWhole v) := by
  obtain ⟨negative, m, rfl, hm⟩ := rational?_finite h
  have hmod : m.units % unitsPerOne ≠ 0 := by
    intro hmod
    have hvalue := Magnitude.value_of_mod hmod
    generalize m.units / unitsPerOne = n at hvalue
    cases negative with
    | false => exact hx n (by rw [hm, hvalue]; simp)
    | true => exact hx (-n) (by rw [hm, hvalue]; simp)
  unfold toExponent
  dsimp only
  rw [if_pos hmod]

/-- A number is infinite, NaN, or finite, and then whole or not. -/
theorem toExponent_cases (v : Binary64) :
    (∃ negative, v = infinite negative ∧ v.rational? = none ∧ v.toExponent = .error (.exponentTooLarge v)) ∨
    (v = nan ∧ v.rational? = none ∧ v.toExponent = .error (.exponentNotWhole v)) ∨
    (∃ x, v.rational? = some x ∧ (∀ z : Int, x ≠ z) ∧ v.toExponent = .error (.exponentNotWhole v)) ∨
    ∃ z : Int, v.rational? = some (z : ℚ) ∧ v.toExponent = v.wholeExponent z := by
  rcases hv : v.rational? with _ | x
  · rcases rational?_none hv with rfl | ⟨negative, rfl⟩
    · exact .inr (.inl ⟨rfl, rfl, rfl⟩)
    · exact .inl ⟨negative, rfl, rfl, rfl⟩
  · by_cases hx : ∃ z : Int, x = z
    · obtain ⟨z, rfl⟩ := hx
      exact .inr (.inr (.inr ⟨z, rfl, toExponent_of_whole hv⟩))
    · have hx : ∀ z : Int, x ≠ z := not_exists.mp hx
      exact .inr (.inr (.inl ⟨x, rfl, hx, toExponent_of_fraction hv hx⟩))

theorem toExponent_eq_ok {n : Nat} : v.toExponent = .ok n ↔ v.rational? = some (n : ℚ) ∧ n ≤ 2 ^ (20 : Nat) := by
  rcases v.toExponent_cases with ⟨negative, -, hv, he⟩ | ⟨-, hv, he⟩ | ⟨x, hv, hx, he⟩ | ⟨z, hv, he⟩
  · simp [hv, he]
  · simp [hv, he]
  · have hn : x ≠ (n : ℚ) := fun h => hx n (by rw [h, Int.cast_natCast])
    simp [hv, he, hn]
  · have hcast : (z : ℚ) = n ↔ z = n := by exact_mod_cast Iff.rfl
    rw [hv, he, wholeExponent_eq_ok, Option.some_inj, hcast]

theorem toExponent_eq_negative {k : Int} : v.toExponent = .error (.exponentNegative k) ↔
    ∃ z : Int, v.rational? = some (z : ℚ) ∧ z < 0 ∧ k = max z (-2 ^ (63 : Nat)) := by
  rcases v.toExponent_cases with ⟨negative, -, hv, he⟩ | ⟨-, hv, he⟩ | ⟨x, hv, hx, he⟩ | ⟨z, hv, he⟩
  · simp [hv, he]
  · simp [hv, he]
  · simp [hv, he, hx]
  · rw [hv, he, wholeExponent_eq_negative]
    simp

theorem toExponent_eq_notWhole {w : Binary64} : v.toExponent = .error (.exponentNotWhole w) ↔
    w = v ∧ (v = nan ∨ ∃ x, v.rational? = some x ∧ ∀ z : Int, x ≠ z) := by
  rcases v.toExponent_cases with ⟨negative, rfl, hv, he⟩ | ⟨hnan, hv, he⟩ | ⟨x, hv, hx, he⟩ | ⟨z, hv, he⟩
  · simp [hv, he]
  · rw [he]
    simp [hnan, eq_comm]
  · simp [hv, he, hx, eq_comm]
  · have hnan : v ≠ nan := by
      rintro rfl
      cases hv
    simp [hv, he, hnan, wholeExponent_ne_notWhole]

theorem toExponent_eq_tooLarge {w : Binary64} : v.toExponent = .error (.exponentTooLarge w) ↔
    w = v ∧ ((∃ negative, v = infinite negative) ∨ ∃ z : Int, v.rational? = some (z : ℚ) ∧ 2 ^ (20 : Nat) < z) := by
  rcases v.toExponent_cases with ⟨negative, rfl, hv, he⟩ | ⟨rfl, hv, he⟩ | ⟨x, hv, hx, he⟩ | ⟨z, hv, he⟩
  · simp [he, eq_comm]
  · simp [hv, he]
  · have hfinite : ∀ negative, v ≠ infinite negative := by
      rintro negative rfl
      cases hv
    simp [hv, he, hx, hfinite]
  · have hfinite : ∀ negative, v ≠ infinite negative := by
      rintro negative rfl
      cases hv
    rw [he, wholeExponent_eq_tooLarge, hv]
    simp [hfinite]

end Binary64

/-! ## Powers -/

/-- The number of an exponent, before it is accepted. -/
def Grammar.Exponent.number? (b : Bindings) : Exponent → Except Mistake Binary64
  | .number v => .ok v
  | .name n => b.lookup n

/-- The scanner answers with these tokens, one after another. -/
def Scanner.Gives : List Token → Scanner → Prop
  | [], _ => True
  | t :: ts, s => s.next.1 = .ok t ∧ Gives ts s.next.2

instance Scanner.decidableGives : (ts : List Token) → (s : Scanner) → Decidable (s.Gives ts)
  | [], _ => inferInstanceAs (Decidable True)
  | t :: ts, s =>
    have := decidableGives ts s.next.2
    inferInstanceAs (Decidable (s.next.1 = .ok t ∧ Scanner.Gives ts s.next.2))

theorem Scanner.gives_append {ts us : List Token} {s : Scanner} :
    s.Gives (ts ++ us) ↔ s.Gives ts ∧ (s.after ts.length).Gives us := by
  induction ts generalizing s with
  | nil => simp [Gives, after]
  | cons t ts ih => simp [Gives, after, ih, and_assoc]

namespace Calculation

variable {b : Bindings} {level : Level}

/-- A calculation takes the tokens that the scanner gives. -/
theorem run_of_gives {ts : List Token} {state next : State} {s : Scanner} (hs : s.Gives ts)
    (hf : feed b level state ts = .more next) : run b level state s = run b level next (s.after ts.length) := by
  induction ts generalizing state s with
  | nil =>
    cases hf
    rfl
  | cons t ts ih =>
    obtain ⟨hn, hrest⟩ := hs
    rw [feed] at hf
    rw [run_of_next (Prod.ext hn rfl)]
    rcases hstep : step b level state t with middle | ⟨result, left⟩
    · rw [hstep, andThen_more] at hf
      exact ih hrest hf
    · rw [hstep] at hf
      cases hf

/-- A power as far as the bracket behind its base. -/
theorem feed_call {e : Expression} {base : Binary64} (he : e.value b = .ok base) (p : Pending) (outer : Enclosing) :
    feed b level (.operand p outer) (.keyword .power :: .symbol .opening :: (e.yield ++ [.symbol .comma])) =
      .more (.exponent base p outer) := by
  have hcomma : Token.symbol .comma ∉ operators := by decide
  simp only [feed, step, operandStep, expect_wanted, andThen_more,
    feed_enclose he (whole_cons (.argument .power, p) outer) hcomma]
  rfl

/-- The exponent of a power is its number, if that is accepted. -/
theorem step_exponent {x : Exponent} {t : Token} (ht : x.yield = [t]) {v : Binary64} (hx : x.number? b = .ok v)
    (base : Binary64) (p : Pending) (outer : Enclosing) :
    step b level (.exponent base p outer) t =
      match v.toExponent with
      | .ok n => .more (.closing base n p outer)
      | .error m => .fail m := by
  have hvalue : x.value b = v.toExponent := by
    cases x with
    | number w =>
      obtain rfl := Except.ok.inj hx
      rfl
    | name n =>
      have hx : b.lookup n = .ok v := hx
      simp only [Exponent.value, hx]
      rfl
  obtain ⟨herror, hok⟩ := exponentStep_eq (b := b) ht base p outer
  rw [hvalue] at herror hok
  show exponentStep b base p outer t = _
  rcases hn : v.toExponent with m | n
  · exact herror m hn
  · exact hok n hn

/-- In a power with a base of value `base` and the number `v` as its exponent, the calculation goes on
    as if the power were a literal, or ends at the exponent. -/
theorem run_call {e : Expression} {base v : Binary64} {x : Exponent} {s : Scanner} (he : e.value b = .ok base)
    (hx : x.number? b = .ok v) (hs : s.Gives (Primary.power e x).yield) (p : Pending) (outer : Enclosing) :
    let count := (Primary.power e x).yield.length
    run b level (.operand p outer) s =
      match v.toExponent with
      | .ok n => runFrom b level (.operand p outer) (.ok (.number (base.power n))) (s.after count)
      | .error m => (.error (.mistake (s.after (count - 1)).line m), s.after (count - 1)) := by
  intro count
  obtain ⟨t, ht⟩ : ∃ t, x.yield = [t] := by cases x <;> exact ⟨_, rfl⟩
  have hyield : (Primary.power e x).yield =
      .keyword .power :: .symbol .opening :: (e.yield ++ [.symbol .comma]) ++ [t, .symbol .closing] := by
    simp [Primary.yield, ht]
  generalize hbefore : Token.keyword .power :: .symbol .opening :: (e.yield ++ [.symbol .comma]) = before at hyield
  have hcount : count = before.length + 2 := by simp [count, hyield]
  rw [hyield, Scanner.gives_append] at hs
  obtain ⟨hgives, hexponent, hclosing, -⟩ := hs
  have hfeed : feed b level (.operand p outer) before = .more (.exponent base p outer) := hbefore ▸ feed_call he p outer
  have hlast : s.after (before.length + 1) = (s.after before.length).next.2 := Scanner.after_succ _ _
  rw [run_of_gives hgives hfeed, run_of_next (Prod.ext hexponent rfl), step_exponent ht hx]
  rcases v.toExponent with m | n
  · rw [hcount, Nat.add_succ_sub_one, hlast]
    rfl
  · have hend : s.after count = ((s.after before.length).next.2).next.2 := by
      rw [hcount, Scanner.after_succ, hlast]
    have hstep : step b level (.closing base n p outer) (.symbol .closing) = complete level p outer (base.power n) :=
      expect_wanted _ _
    have hnumber : step b level (.operand p outer) (.number (base.power n)) = complete level p outer (base.power n) := rfl
    dsimp only
    rw [run_of_next (Prod.ext hclosing rfl), hstep, hend, runFrom, hnumber]
    rcases hc : complete level p outer (base.power n) with next | ⟨result, left⟩
    · rfl
    · obtain rfl := complete_left hc
      rfl

end Calculation

namespace Binary64

/-- A number is an exponent exactly if it is a whole number from zero to `2 ^ 20`. The mistake of a whole
    number below zero tells it, down to `-2 ^ 63`; numbers with a fraction and NaN are not whole; whole
    numbers above `2 ^ 20` and both infinities are too large. In a power whose exponent is a literal or
    a variable with this number, a primary has a value in the first case alone, that of the power; and
    any calculation goes on behind it as behind a literal with that value, or ends with the mistake. -/
theorem exponent_by_value (v : Binary64) :
    (∀ n : Nat, v.toExponent = .ok n ↔ v.rational? = some (n : ℚ) ∧ n ≤ 2 ^ (20 : Nat)) ∧
    (∀ k : Int, v.toExponent = .error (.exponentNegative k) ↔
      ∃ z : Int, v.rational? = some (z : ℚ) ∧ z < 0 ∧ k = max z (-2 ^ (63 : Nat))) ∧
    (∀ w, v.toExponent = .error (.exponentNotWhole w) ↔
      w = v ∧ (v = nan ∨ ∃ x, v.rational? = some x ∧ ∀ z : Int, x ≠ z)) ∧
    (∀ w, v.toExponent = .error (.exponentTooLarge w) ↔
      w = v ∧ ((∃ negative, v = infinite negative) ∨ ∃ z : Int, v.rational? = some (z : ℚ) ∧ 2 ^ (20 : Nat) < z)) ∧
    ∀ (b : Bindings) (e : Expression) (base : Binary64) (x : Exponent) (s : Scanner), e.value b = .ok base →
      x.number? b = .ok v → s.Gives (Primary.power e x).yield →
      (∀ w, (Production.primary b s).answer = .ok w ↔
        ∃ n : Nat, v.rational? = some (n : ℚ) ∧ n ≤ 2 ^ (20 : Nat) ∧ w = base.power n) ∧
      ∀ level p outer, let count := (Primary.power e x).yield.length
        (∀ n, v.toExponent = .ok n → Calculation.run b level (.operand p outer) s =
          Calculation.runFrom b level (.operand p outer) (.ok (.number (base.power n))) (s.after count)) ∧
        ∀ m, v.toExponent = .error m → Calculation.run b level (.operand p outer) s =
          (.error (.mistake (s.after (count - 1)).line m), s.after (count - 1)) := by
  refine ⟨fun _ => toExponent_eq_ok, fun _ => toExponent_eq_negative, fun _ => toExponent_eq_notWhole,
    fun _ => toExponent_eq_tooLarge, ?_⟩
  intro b e base x s he hx hs
  constructor
  · intro w
    have hrun := congrArg Prod.fst (Calculation.ofLevel_eq_run .primary b s)
    have hanswer : (Production.primary b s).answer = (Calculation.run b .primary .start s).1 := hrun
    rw [hanswer, Calculation.State.start, Calculation.run_call he hx hs]
    rcases hn : v.toExponent with m | n
    · refine iff_of_false (by simp) ?_
      rintro ⟨n, hvalue, hle, -⟩
      rw [toExponent_eq_ok.mpr ⟨hvalue, hle⟩] at hn
      cases hn
    · show Except.ok (base.power n) = Except.ok w ↔ _
      constructor
      · intro hw
        obtain ⟨hvalue, hle⟩ := toExponent_eq_ok.mp hn
        exact ⟨n, hvalue, hle, (Except.ok.inj hw).symm⟩
      · rintro ⟨k, hvalue, hle, rfl⟩
        rw [toExponent_eq_ok.mpr ⟨hvalue, hle⟩] at hn
        rw [Except.ok.inj hn]
  · intro level p outer
    constructor
    · intro n hn
      rw [Calculation.run_call he hx hs, hn]
    · intro m hm
      rw [Calculation.run_call he hx hs, hm]

/-- Ten, as the value of a variable. A zero with a sign is an exponent too, and the number nearest to
    `-10 ^ 20` is below the least one that is reported. -/
theorem exponent_by_value_ten :
    let two := (⟨2, 0⟩ : Decimal).toBinary64
    let ten := (⟨10, 0⟩ : Decimal).toBinary64
    let s := Scanner.ofPieces (Source.ofString "pow(2, x) - 24")
    let base : Expression := .of (.of (.number two) .none) .none
    s.Gives (Primary.power base (.name "x")).yield ∧ ten.rational? = some 10 ∧
      (Production.primary ⟨[⟨"x", ten⟩]⟩ s).answer = .ok (two.power 10) ∧
      (finite true .zero).toExponent = .ok 0 ∧
      (⟨10, 19⟩ : Decimal).toBinary64.neg.toExponent = .error (.exponentNegative (-2 ^ (63 : Nat))) := by
  intro two ten s base
  have hgives : s.Gives (Primary.power base (.name "x")).yield := by decide +kernel
  have hten : ten.toExponent = .ok 10 := by decide +kernel
  obtain ⟨hok, -, -, -, hcall⟩ := exponent_by_value ten
  have hvalue : ten.rational? = some 10 := ((hok 10).mp hten).1
  obtain ⟨hprimary, -⟩ := hcall ⟨[⟨"x", ten⟩]⟩ base two (.name "x") s rfl (by decide +kernel) hgives
  refine ⟨hgives, hvalue, (hprimary _).mpr ⟨10, hvalue, by decide, rfl⟩, ?_, by decide +kernel⟩
  exact ((exponent_by_value (finite true .zero)).1 0).mpr ⟨by simp [rational?, Magnitude.value_zero], by decide⟩

end Binary64

end Reckoner
