/-
  Reckoner.Binary64.Basic — the numbers of the calculator.

  A finite number is a sign and a magnitude. A magnitude is a whole number of units of
  `2 ^ -1074`, held as `significand * 2 ^ exponent` with at most 53 bits of significand;
  the exponent is as small as that allows, so a magnitude has one form
  (`Magnitude.units_injective`). Zero has two signs, infinity has two signs, and there is
  one NaN: no operation of the calculator can tell two NaNs apart.

  Words: `ofBits` and `toBits` are the interchange format of IEEE 754
  (`ofBits_toBits`: writing and reading back gives the same number).
-/

namespace Reckoner

-- Powers of natural numbers are taken by `Nat.pow`, whatever else is imported beside.
attribute [local instance (2000)] instPowNat

/-- One is this many units. -/
def unitsPerOne : Nat := 2 ^ (1074 : Nat)

theorem unitsPerOne_pos : 0 < unitsPerOne := by
  unfold unitsPerOne
  generalize 1074 = k
  exact Nat.two_pow_pos k

theorem leastNormal_lt : 2 ^ (52 : Nat) < 2 ^ (53 : Nat) := by decide

structure Magnitude where
  significand : Nat
  exponent : Nat
  significand_lt : significand < 2 ^ (53 : Nat)
  exponent_le : exponent ≤ 2045
  normal : exponent = 0 ∨ 2 ^ (52 : Nat) ≤ significand
  deriving DecidableEq

namespace Magnitude

/-- The magnitude as a number of units of `2 ^ -1074`. -/
def units (m : Magnitude) : Nat := m.significand * 2 ^ m.exponent

def zero : Magnitude := ⟨0, 0, by decide, by decide, .inl rfl⟩

theorem units_lt_of_exponent_lt {m n : Magnitude} (h : m.exponent < n.exponent) : m.units < n.units := by
  have hn : 2 ^ (52 : Nat) ≤ n.significand := n.normal.resolve_left (by omega)
  calc m.units < 2 ^ (53 : Nat) * 2 ^ m.exponent := Nat.mul_lt_mul_of_pos_right m.significand_lt (Nat.two_pow_pos _)
    _ = 2 ^ (52 : Nat) * 2 ^ (m.exponent + 1) := by rw [Nat.pow_succ 2 m.exponent]; omega
    _ ≤ 2 ^ (52 : Nat) * 2 ^ n.exponent := Nat.mul_le_mul_left _ (Nat.pow_le_pow_right (by decide) h)
    _ ≤ n.units := Nat.mul_le_mul_right _ hn

/-- A magnitude has one form. -/
theorem units_injective {m n : Magnitude} (h : m.units = n.units) : m = n := by
  have he : m.exponent = n.exponent := by
    rcases Nat.lt_trichotomy m.exponent n.exponent with hl | he | hl
    · exact absurd h (Nat.ne_of_lt (units_lt_of_exponent_lt hl))
    · exact he
    · exact absurd h.symm (Nat.ne_of_lt (units_lt_of_exponent_lt hl))
  have hs : m.significand = n.significand := by
    unfold units at h
    rw [he] at h
    exact Nat.eq_of_mul_eq_mul_right (Nat.two_pow_pos _) h
  cases m
  cases n
  simp_all

theorem units_eq_zero {m : Magnitude} : m.units = 0 ↔ m = zero := by
  constructor
  · exact fun h => units_injective (h.trans (by decide : 0 = zero.units))
  · rintro rfl
    decide

end Magnitude

inductive Binary64 where
  | nan
  | infinite (negative : Bool)
  | finite (negative : Bool) (size : Magnitude)
  deriving DecidableEq

namespace Binary64

def zero : Binary64 := .finite false .zero

def one : Binary64 := .finite false ⟨2 ^ (52 : Nat), 1022, leastNormal_lt, by decide, .inr (Nat.le_refl _)⟩

/-- Zero of either sign. -/
def isZero : Binary64 → Bool
  | finite _ m => m == .zero
  | _ => false

def isFinite : Binary64 → Bool
  | finite _ _ => true
  | _ => false

/-- Below zero: a zero with a minus sign is not. -/
def isBelowZero (v : Binary64) : Bool :=
  match v with
  | nan => false
  | infinite negative => negative
  | finite negative m => negative && m != .zero

/-- Numeric equality: the two zeros are the same number and NaN is none. -/
def same : Binary64 → Binary64 → Bool
  | nan, _ => false
  | _, nan => false
  | v, w => v == w || (v.isZero && w.isZero)

/-! ## Words -/

def ofBits (word : UInt64) : Binary64 :=
  let negative := 2 ^ (63 : Nat) ≤ word.toNat
  let biased := word.toNat / 2 ^ (52 : Nat) % 2 ^ (11 : Nat)
  let fraction := word.toNat % 2 ^ (52 : Nat)
  have fraction_lt : fraction < 2 ^ (52 : Nat) := Nat.mod_lt _ (by decide)
  if biased = 0 then
    .finite negative ⟨fraction, 0, by omega, by decide, .inl rfl⟩
  else if h : biased ≤ 2046 then
    .finite negative ⟨2 ^ (52 : Nat) + fraction, biased - 1, by omega, by omega, .inr (by omega)⟩
  else if fraction = 0 then .infinite negative
  else .nan

def signBit (negative : Bool) : Nat := if negative then 2 ^ (63 : Nat) else 0

def toBits (v : Binary64) : UInt64 :=
  UInt64.ofNat <| match v with
  | nan => 2047 * 2 ^ (52 : Nat) + 2 ^ (51 : Nat)
  | infinite negative => signBit negative + 2047 * 2 ^ (52 : Nat)
  | finite negative m =>
    signBit negative +
      if m.significand < 2 ^ (52 : Nat) then m.significand
      else (m.exponent + 1) * 2 ^ (52 : Nat) + (m.significand - 2 ^ (52 : Nat))

theorem signBit_add_div {negative : Bool} {n : Nat} (h : n < 2 ^ (63 : Nat)) :
    decide (2 ^ (63 : Nat) ≤ signBit negative + n) = negative := by
  cases negative
  · simp [signBit]
    omega
  · simp [signBit]

theorem ofBits_ofNat {negative : Bool} {n : Nat} (h : n < 2 ^ (63 : Nat)) :
    ofBits (UInt64.ofNat (signBit negative + n)) =
      if h0 : n / 2 ^ (52 : Nat) = 0 then
        .finite negative ⟨n, 0, by omega, by decide, .inl rfl⟩
      else if h1 : n / 2 ^ (52 : Nat) ≤ 2046 then
        .finite negative
          ⟨2 ^ (52 : Nat) + n % 2 ^ (52 : Nat), n / 2 ^ (52 : Nat) - 1, by omega, by omega, .inr (by omega)⟩
      else if n % 2 ^ (52 : Nat) = 0 then .infinite negative
      else .nan := by
  have hs : signBit negative = 0 ∨ signBit negative = 2 ^ (63 : Nat) := by cases negative <;> simp [signBit]
  have hn : (UInt64.ofNat (signBit negative + n)).toNat = signBit negative + n := by
    rw [UInt64.toNat_ofNat', Nat.mod_eq_of_lt (by omega)]
  have hb : (signBit negative + n) / 2 ^ (52 : Nat) % 2 ^ (11 : Nat) = n / 2 ^ (52 : Nat) := by omega
  have hf : (signBit negative + n) % 2 ^ (52 : Nat) = n % 2 ^ (52 : Nat) := by omega
  unfold ofBits
  simp only [hn, hb, hf, signBit_add_div h]
  split
  · have : n % 2 ^ (52 : Nat) = n := by omega
    simp only [this]
  · rfl

theorem ofBits_toBits (v : Binary64) : ofBits v.toBits = v := by
  cases v with
  | nan => decide
  | infinite negative => cases negative <;> decide
  | finite negative m =>
    obtain ⟨q, e, hq, he, hn⟩ := m
    unfold toBits
    dsimp only
    split
    · rw [ofBits_ofNat (by omega), dif_pos (by omega)]
      have : e = 0 := by omega
      simp only [this]
    · have hd : ((e + 1) * 2 ^ (52 : Nat) + (q - 2 ^ (52 : Nat))) / 2 ^ (52 : Nat) = e + 1 := by omega
      have hm : ((e + 1) * 2 ^ (52 : Nat) + (q - 2 ^ (52 : Nat))) % 2 ^ (52 : Nat) = q - 2 ^ (52 : Nat) := by omega
      rw [ofBits_ofNat (by omega), dif_neg (by omega), dif_pos (by omega)]
      simp only [hd, hm]
      have : 2 ^ (52 : Nat) + (q - 2 ^ (52 : Nat)) = q := by omega
      simp only [this, Nat.add_sub_cancel]

end Binary64

end Reckoner
