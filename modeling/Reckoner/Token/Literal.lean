/-
  Reckoner.Token.Literal — numbers as they are spelled in a statement.

  A literal is digits with an optional point and fraction, or a point and digits, and then
  an optional exponent. The scan takes as much of the text as forms a literal: an `e` that no
  digits follow is left where it stands.

  - `text_append_of_scan?`: the scan loses nothing of the text.
  - `wellFormed_of_scan?`: what it takes is a literal.
-/

import Reckoner.Decimal.Conversion

namespace Reckoner

/-- `e` or `E`, perhaps a sign, and digits. -/
structure Literal.Exponent where
  mark : Char
  sign : Option Char
  digits : List Char
  deriving DecidableEq

/-- A number as spelled; the fraction is present if the point is. -/
structure Literal where
  whole : List Char
  fraction : Option (List Char)
  exponent : Option Literal.Exponent
  deriving DecidableEq

namespace Literal

/-! ## Text -/

def Exponent.text (x : Exponent) : List Char := x.mark :: (x.sign.toList ++ x.digits)

def fractionText : Option (List Char) → List Char
  | some digits => '.' :: digits
  | none => []

def exponentText : Option Exponent → List Char
  | some x => x.text
  | none => []

def text (l : Literal) : List Char := l.whole ++ (fractionText l.fraction ++ exponentText l.exponent)

def Exponent.WellFormed (x : Exponent) : Prop :=
  (x.mark = 'e' ∨ x.mark = 'E') ∧ (∀ c ∈ x.sign, c = '+' ∨ c = '-') ∧ x.digits ≠ [] ∧
    ∀ c ∈ x.digits, c.isDigit = true

/-- The form of a literal: digits on one side of the point at least. -/
structure WellFormed (l : Literal) : Prop where
  whole : ∀ c ∈ l.whole, c.isDigit = true
  fraction : ∀ digits ∈ l.fraction, ∀ c ∈ digits, c.isDigit = true
  digit : l.whole ≠ [] ∨ ∃ digits ∈ l.fraction, digits ≠ []
  exponent : ∀ x ∈ l.exponent, x.WellFormed

/-! ## Value -/

def Exponent.value (x : Exponent) : Int :=
  let size := Nat.ofDigitChars 10 x.digits 0
  if x.sign = some '-' then -(size : Int) else size

/-- The number spelled, exactly. -/
def toDecimal (l : Literal) : Decimal :=
  let fraction := l.fraction.getD []
  { coefficient := Nat.ofDigitChars 10 (l.whole ++ fraction) 0
    exponent := (l.exponent.map Exponent.value).getD 0 - fraction.length }

def value (l : Literal) : Binary64 := l.toDecimal.toBinary64

/-! ## Scan -/

def scanFraction : List Char → Option (List Char) × List Char
  | '.' :: cs => (some (cs.takeWhile Char.isDigit), cs.dropWhile Char.isDigit)
  | cs => (none, cs)

def scanSign : List Char → Option Char × List Char
  | [] => (none, [])
  | c :: cs => if c = '+' ∨ c = '-' then (some c, cs) else (none, c :: cs)

def scanExponent : List Char → Option Exponent × List Char
  | [] => (none, [])
  | c :: cs =>
    let (sign, rest) := scanSign cs
    let digits := rest.takeWhile Char.isDigit
    if (c = 'e' ∨ c = 'E') ∧ digits ≠ [] then (some ⟨c, sign, digits⟩, rest.dropWhile Char.isDigit)
    else (none, c :: cs)

/-- The longest literal at the beginning of a text, and the text behind it. -/
def scan? (cs : List Char) : Option (Literal × List Char) :=
  let whole := cs.takeWhile Char.isDigit
  let (fraction, rest) := scanFraction (cs.dropWhile Char.isDigit)
  if whole = [] ∧ fraction.getD [] = [] then none
  else
    let (exponent, rest) := scanExponent rest
    some (⟨whole, fraction, exponent⟩, rest)

theorem fractionText_append_scan (cs : List Char) :
    fractionText (scanFraction cs).1 ++ (scanFraction cs).2 = cs := by
  unfold scanFraction
  split <;> simp [fractionText, List.takeWhile_append_dropWhile]

theorem sign_append_scan (cs : List Char) : (scanSign cs).1.toList ++ (scanSign cs).2 = cs := by
  unfold scanSign
  split
  · rfl
  · split <;> rfl

theorem exponentText_append_scan (cs : List Char) :
    exponentText (scanExponent cs).1 ++ (scanExponent cs).2 = cs := by
  unfold scanExponent
  split
  · rfl
  · rename_i c cs
    have hs := sign_append_scan cs
    dsimp only
    split
    · simp [exponentText, Exponent.text, List.takeWhile_append_dropWhile, hs]
    · rfl

/-- The scan loses nothing. -/
theorem text_append_of_scan? {cs rest : List Char} {l : Literal} (h : scan? cs = some (l, rest)) :
    l.text ++ rest = cs := by
  unfold scan? at h
  dsimp only at h
  split at h
  · cases h
  · cases h
    simp only [text, List.append_assoc, exponentText_append_scan, fractionText_append_scan,
      List.takeWhile_append_dropWhile]

theorem isDigit_of_mem_takeWhile {cs : List Char} {c : Char} (h : c ∈ cs.takeWhile Char.isDigit) :
    c.isDigit = true := List.all_eq_true.mp List.all_takeWhile c h

theorem isDigit_of_scanFraction {cs digits : List Char} (h : digits ∈ (scanFraction cs).1) :
    ∀ c ∈ digits, c.isDigit = true := by
  unfold scanFraction at h
  split at h
  · cases h
    exact fun _ => isDigit_of_mem_takeWhile
  · cases h

theorem sign_of_scanSign {cs : List Char} {c : Char} (h : c ∈ (scanSign cs).1) : c = '+' ∨ c = '-' := by
  unfold scanSign at h
  grind

theorem wellFormed_of_scanExponent {cs : List Char} {x : Exponent} (h : x ∈ (scanExponent cs).1) :
    x.WellFormed := by
  unfold scanExponent at h
  split at h
  · cases h
  · dsimp only at h
    split at h
    · rename_i hx
      cases h
      exact ⟨hx.1, fun _ => sign_of_scanSign, hx.2, fun _ => isDigit_of_mem_takeWhile⟩
    · cases h

/-- What the scan takes is a literal. -/
theorem wellFormed_of_scan? {cs rest : List Char} {l : Literal} (h : scan? cs = some (l, rest)) :
    l.WellFormed := by
  unfold scan? at h
  dsimp only at h
  split at h
  · cases h
  · rename_i hd
    cases h
    refine ⟨fun _ => isDigit_of_mem_takeWhile, fun _ => isDigit_of_scanFraction, ?_,
      fun _ => wellFormed_of_scanExponent⟩
    by_cases hw : cs.takeWhile Char.isDigit = []
    · refine .inr ?_
      have hf : (scanFraction (cs.dropWhile Char.isDigit)).1.getD [] ≠ [] := fun h => hd ⟨hw, h⟩
      dsimp only
      cases he : (scanFraction (cs.dropWhile Char.isDigit)).1 with
      | none => rw [he] at hf; exact absurd rfl hf
      | some digits => rw [he] at hf; exact ⟨digits, rfl, hf⟩
    · exact .inl hw

end Literal

end Reckoner
