/-
  Reckoner.Proofs.Patterns — the regular expressions of literals and names.

  A literal is a match of `([0-9]+(\.[0-9]*)?|\.[0-9]+)([eE][+-]?[0-9]+)?`, and a name or keyword one
  of `[a-zA-Z][a-zA-Z0-9]*`. The expressions are written with alternatives, concatenation and star
  only, and matching is that of their languages, in which no scan has a part.

  - `mem_oneOf`, `mem_star`, `mem_repeated`, `mem_perhaps`: the parts the two are built of.
  - `mem_number`, `mem_identifier`: what they match.
-/

import Mathlib.Computability.RegularExpressions
import Reckoner.Proofs.Literals

namespace Reckoner

namespace Pattern

open RegularExpression

/-! ## Expressions -/

/-- The characters from `low` to `high`. -/
def between (low high : Char) : List Char :=
  (List.range' low.toNat (high.toNat + 1 - low.toNat)).map Char.ofNat

def oneOf : List Char → RegularExpression Char
  | [] => 0
  | c :: cs => char c + oneOf cs

def perhaps (p : RegularExpression Char) : RegularExpression Char := p + 1

def repeated (p : RegularExpression Char) : RegularExpression Char := p * p.star

/-- A digit: `[0-9]`. -/
def digit : RegularExpression Char := oneOf (between '0' '9')

/-- A letter: `[a-zA-Z]`. -/
def letter : RegularExpression Char := oneOf (between 'a' 'z' ++ between 'A' 'Z')

/-- Digits and perhaps a point: `[0-9]+(\.[0-9]*)?|\.[0-9]+`. -/
def mantissa : RegularExpression Char :=
  repeated digit * perhaps (char '.' * digit.star) + char '.' * repeated digit

/-- A power of ten: `[eE][+-]?[0-9]+`. -/
def exponent : RegularExpression Char := oneOf ['e', 'E'] * (perhaps (oneOf ['+', '-']) * repeated digit)

def number : RegularExpression Char := mantissa * perhaps exponent

def identifier : RegularExpression Char := letter * (letter + digit).star

/-! ## Parts -/

section

variable {p q : RegularExpression Char} {cs : List Char}

theorem mem_char {c : Char} : cs ∈ (char c).matches' ↔ cs = [c] := Iff.rfl

theorem mem_oneOf {set : List Char} : cs ∈ (oneOf set).matches' ↔ ∃ c ∈ set, cs = [c] := by
  induction set with
  | nil =>
    constructor
    · intro h
      exact absurd h (Language.notMem_zero cs)
    · rintro ⟨c, hc, -⟩
      cases hc
  | cons c set ih =>
    rw [oneOf, matches'_add, Language.mem_add, ih, mem_char]
    simp

theorem mem_perhaps : cs ∈ (perhaps p).matches' ↔ cs ∈ p.matches' ∨ cs = [] := by
  rw [perhaps, matches'_add, Language.mem_add, matches'_epsilon, Language.mem_one]

theorem mem_char_mul {c : Char} : cs ∈ (char c * p).matches' ↔ ∃ rest ∈ p.matches', c :: rest = cs := by
  rw [matches'_mul, Language.mem_mul]
  constructor
  · rintro ⟨_, rfl, rest, hrest, rfl⟩
    exact ⟨rest, hrest, rfl⟩
  · rintro ⟨rest, hrest, rfl⟩
    exact ⟨[c], mem_char.mpr rfl, rest, hrest, rfl⟩

/-- The expression matches the characters of a kind. -/
def Single (p : RegularExpression Char) (kind : Char → Prop) : Prop := ∀ cs, cs ∈ p.matches' ↔ ∃ c, kind c ∧ cs = [c]

variable {kind kind' : Char → Prop}

theorem Single.add (hp : Single p kind) (hq : Single q kind') : Single (p + q) fun c => kind c ∨ kind' c := by
  intro cs
  rw [matches'_add, Language.mem_add, hp cs, hq cs]
  simp only [or_and_right, exists_or]

theorem mem_star (h : Single p kind) : cs ∈ p.star.matches' ↔ ∀ c ∈ cs, kind c := by
  rw [matches'_star, Language.mem_kstar]
  constructor
  · rintro ⟨parts, rfl, hparts⟩ c hc
    obtain ⟨part, hmem, hc⟩ := List.mem_flatten.mp hc
    obtain ⟨d, hd, rfl⟩ := (h part).mp (hparts part hmem)
    rwa [List.mem_singleton.mp hc]
  · intro hc
    refine ⟨cs.map fun c => [c], ?_, ?_⟩
    · induction cs with
      | nil => rfl
      | cons c cs ih =>
        have hrest := ih fun d hd => hc d (List.mem_cons_of_mem _ hd)
        rw [List.map_cons, List.flatten_cons, ← hrest]
        rfl
    · intro part hpart
      obtain ⟨c, hmem, rfl⟩ := List.mem_map.mp hpart
      exact (h [c]).mpr ⟨c, hc c hmem, rfl⟩

theorem mem_single_mul_star (hp : Single p kind) (hq : Single q kind') :
    cs ∈ (p * q.star).matches' ↔ ∃ c rest, cs = c :: rest ∧ kind c ∧ ∀ d ∈ rest, kind' d := by
  rw [matches'_mul, Language.mem_mul]
  constructor
  · rintro ⟨a, ha, rest, hrest, rfl⟩
    obtain ⟨c, hc, rfl⟩ := (hp a).mp ha
    exact ⟨c, rest, rfl, hc, (mem_star hq).mp hrest⟩
  · rintro ⟨c, rest, rfl, hc, hrest⟩
    exact ⟨[c], (hp [c]).mpr ⟨c, hc, rfl⟩, rest, (mem_star hq).mpr hrest, rfl⟩

theorem mem_repeated (h : Single p kind) : cs ∈ (repeated p).matches' ↔ cs ≠ [] ∧ ∀ c ∈ cs, kind c := by
  rw [repeated, mem_single_mul_star h h]
  constructor
  · rintro ⟨c, rest, rfl, hc, hrest⟩
    exact ⟨List.cons_ne_nil c rest, List.forall_mem_cons.mpr ⟨hc, hrest⟩⟩
  · rintro ⟨hne, hall⟩
    obtain ⟨c, rest, rfl⟩ := List.exists_cons_of_ne_nil hne
    exact ⟨c, rest, rfl, List.forall_mem_cons.mp hall⟩

end

/-! ## Digits and letters -/

theorem toNat_ofNat {n : Nat} (h : n < 0xD800) : (Char.ofNat n).toNat = n := by
  rw [Char.ofNat, dif_pos (.inl h)]
  rfl

theorem mem_between {low high c : Char} (h : high.toNat < 0xD800) :
    c ∈ between low high ↔ low.toNat ≤ c.toNat ∧ c.toNat ≤ high.toNat := by
  rw [between, List.mem_map]
  constructor
  · rintro ⟨n, hn, rfl⟩
    have hrange := List.mem_range'_1.mp hn
    rw [toNat_ofNat (by omega)]
    omega
  · intro hc
    refine ⟨c.toNat, List.mem_range'_1.mpr ?_, c.ofNat_toNat⟩
    omega

theorem single_digit : Single digit fun c => c.isDigit = true := by
  intro cs
  have hdigits (c : Char) : c ∈ between '0' '9' ↔ '0'.toNat ≤ c.toNat ∧ c.toNat ≤ '9'.toNat := mem_between (by decide)
  simp only [digit, mem_oneOf, hdigits, Char.isDigit_iff_toNat]

theorem isAlpha_iff {c : Char} : c.isAlpha = true ↔ c ∈ between 'a' 'z' ++ between 'A' 'Z' := by
  have hupper : c.isUpper = true ↔ 'A'.toNat ≤ c.toNat ∧ c.toNat ≤ 'Z'.toNat := decide_eq_true_iff
  have hlower : c.isLower = true ↔ 'a'.toNat ≤ c.toNat ∧ c.toNat ≤ 'z'.toNat :=
    Bool.and_eq_true_iff.trans (and_congr decide_eq_true_iff decide_eq_true_iff)
  have halpha : c.isAlpha = true ↔ c.isUpper = true ∨ c.isLower = true := Bool.or_eq_true_iff
  rw [halpha, or_comm, hlower, hupper, List.mem_append, mem_between (by decide), mem_between (by decide)]

theorem single_letter : Single letter fun c => c.isAlpha = true := by
  intro cs
  simp only [letter, mem_oneOf, isAlpha_iff]

/-! ## Names -/

theorem mem_identifier {cs : List Char} :
    cs ∈ identifier.matches' ↔ ∃ c rest, cs = c :: rest ∧ c.isAlpha = true ∧ ∀ d ∈ rest, d.isAlphanum = true := by
  rw [identifier, mem_single_mul_star single_letter (single_letter.add single_digit)]
  simp only [Char.isAlphanum, Bool.or_eq_true]

theorem isIdentifier_iff {name : String} : isIdentifier name = true ↔ name.toList ∈ identifier.matches' := by
  unfold isIdentifier
  rw [mem_identifier]
  split
  · rename_i hnil
    rw [hnil]
    refine iff_of_false Bool.false_ne_true ?_
    rintro ⟨c, rest, hcons, -⟩
    cases hcons
  · rename_i c rest hcons
    rw [hcons, Bool.and_eq_true, List.all_eq_true]
    constructor
    · rintro ⟨hc, hrest⟩
      exact ⟨c, rest, rfl, hc, hrest⟩
    · rintro ⟨d, rest', hd, hc, hrest⟩
      obtain ⟨rfl, rfl⟩ := List.cons.inj hd
      exact ⟨hc, hrest⟩

/-! ## Literals -/

/-- Digits, and perhaps a point with digits behind it; digits on one side at least. -/
theorem mem_mantissa {cs : List Char} :
    cs ∈ mantissa.matches' ↔ ∃ whole fraction, cs = whole ++ Literal.fractionText fraction ∧
      (∀ c ∈ whole, c.isDigit = true) ∧ (∀ digits ∈ fraction, ∀ c ∈ digits, c.isDigit = true) ∧
      (whole ≠ [] ∨ ∃ digits ∈ fraction, digits ≠ []) := by
  rw [mantissa, matches'_add, Language.mem_add, matches'_mul, Language.mem_mul, mem_char_mul]
  simp only [mem_repeated single_digit, mem_perhaps, mem_char_mul, mem_star single_digit]
  constructor
  · rintro (⟨whole, ⟨hne, hwhole⟩, tail, (⟨digits, hdigits, rfl⟩ | rfl), rfl⟩ | ⟨digits, ⟨hne, hdigits⟩, rfl⟩)
    · exact ⟨whole, some digits, rfl, hwhole, by simpa using hdigits, .inl hne⟩
    · exact ⟨whole, none, rfl, hwhole, by simp, .inl hne⟩
    · exact ⟨[], some digits, rfl, by simp, by simpa using hdigits, .inr ⟨digits, rfl, hne⟩⟩
  · rintro ⟨whole, fraction, rfl, hwhole, hfraction, hdigit⟩
    by_cases hw : whole = []
    · obtain ⟨digits, hd, hne⟩ := hdigit.resolve_left fun h => h hw
      obtain rfl := Option.mem_def.mp hd
      exact .inr ⟨digits, ⟨hne, hfraction digits rfl⟩, by rw [hw]; rfl⟩
    · refine .inl ⟨whole, ⟨hw, hwhole⟩, Literal.fractionText fraction, ?_, rfl⟩
      cases fraction with
      | none => exact .inr rfl
      | some digits => exact .inl ⟨digits, hfraction digits rfl, rfl⟩

theorem mem_exponent {cs : List Char} :
    cs ∈ exponent.matches' ↔ ∃ x : Literal.Exponent, x.WellFormed ∧ x.text = cs := by
  rw [exponent, matches'_mul, Language.mem_mul]
  simp only [mem_oneOf, matches'_mul, Language.mem_mul, mem_repeated single_digit, mem_perhaps]
  constructor
  · rintro ⟨-, ⟨mark, hmark, rfl⟩, -, ⟨sign, hsign, digits, ⟨hne, hdigits⟩, rfl⟩, rfl⟩
    have hmark : mark = 'e' ∨ mark = 'E' := by simpa using hmark
    rcases hsign with ⟨c, hc, rfl⟩ | rfl
    · have hc : c = '+' ∨ c = '-' := by simpa using hc
      exact ⟨⟨mark, some c, digits⟩, ⟨hmark, by simpa using hc, hne, hdigits⟩, rfl⟩
    · exact ⟨⟨mark, none, digits⟩, ⟨hmark, by simp, hne, hdigits⟩, rfl⟩
  · rintro ⟨⟨mark, sign, digits⟩, ⟨hmark, hsign, hne, hdigits⟩, rfl⟩
    refine ⟨[mark], ⟨mark, by simpa using hmark, rfl⟩, sign.toList ++ digits, ?_, rfl⟩
    refine ⟨sign.toList, ?_, digits, ⟨hne, hdigits⟩, rfl⟩
    cases sign with
    | none => exact .inr rfl
    | some c => exact .inl ⟨c, by simpa using hsign c rfl, rfl⟩

/-- The literals in the form that the scan takes them are the matches. -/
theorem mem_number {cs : List Char} : cs ∈ number.matches' ↔ ∃ l : Literal, l.WellFormed ∧ l.text = cs := by
  rw [number, matches'_mul, Language.mem_mul]
  simp only [mem_perhaps, mem_mantissa, mem_exponent]
  constructor
  · rintro ⟨-, ⟨whole, fraction, rfl, hwhole, hfraction, hdigit⟩, -, (⟨x, hx, rfl⟩ | rfl), rfl⟩
    · exact ⟨⟨whole, fraction, some x⟩, ⟨hwhole, hfraction, hdigit, by simpa using hx⟩, (List.append_assoc _ _ _).symm⟩
    · exact ⟨⟨whole, fraction, none⟩, ⟨hwhole, hfraction, hdigit, by simp⟩, (List.append_assoc _ _ _).symm⟩
  · rintro ⟨⟨whole, fraction, exponent⟩, ⟨hwhole, hfraction, hdigit, hexponent⟩, rfl⟩
    refine ⟨_, ⟨whole, fraction, rfl, hwhole, hfraction, hdigit⟩, Literal.exponentText exponent, ?_,
      List.append_assoc _ _ _⟩
    cases exponent with
    | none => exact .inr rfl
    | some x => exact .inl ⟨x, hexponent x rfl, rfl⟩

end Pattern

end Reckoner
