/-
  Reckoner.Proofs.Written — what is written stays on its line.

  Numbers, tokens and messages have no newline in them, so that a result or a message is one
  line of the output it is written to.

  - `generalText?_isSome`: up to a precision of 65532 every number can be printed.
  - `onOneLine_message`: a message about what was read is one line.
-/

import Reckoner.Decimal.General
import Reckoner.Proofs.Outcome

namespace Reckoner

/-- A text without a newline. -/
def OnOneLine (text : String) : Prop := '\n' ∉ text.toList

instance (text : String) : Decidable (OnOneLine text) := inferInstanceAs (Decidable (¬ _))

@[simp] theorem onOneLine_append {a b : String} : OnOneLine (a ++ b) ↔ OnOneLine a ∧ OnOneLine b := by
  simp only [OnOneLine, String.toList_append, List.mem_append, not_or]

@[simp] theorem onOneLine_quoted {text : String} : OnOneLine (quoted text) ↔ OnOneLine text := by
  have hq : OnOneLine "'" := by decide
  simp only [quoted, onOneLine_append, hq, true_and, and_true]

/-! ## Numbers -/

namespace Decimal

theorem newline_not_mem_toDigits (n : Nat) : '\n' ∉ Nat.toDigits 10 n := by
  intro h
  have hd := Nat.isDigit_of_mem_toDigits (by decide) (by decide) h
  exact absurd hd (by decide)

theorem newline_not_mem_positional (d : Decimal) : '\n' ∉ d.positional := by
  have hd : '\n' ∉ d.digits := newline_not_mem_toDigits _
  have htake : ∀ n, '\n' ∉ d.digits.take n := fun n h => hd (List.mem_of_mem_take h)
  have hdrop : ∀ n, '\n' ∉ d.digits.drop n := fun n h => hd (List.mem_of_mem_drop h)
  unfold positional
  split
  · simp [hd]
  · dsimp only
    split
    · simp [htake, hdrop]
    · simp [hd]

theorem newline_not_mem_scientific (d : Decimal) : '\n' ∉ d.scientific := by
  have hd : '\n' ∉ d.digits := newline_not_mem_toDigits _
  have hx : '\n' ∉ exponentText d.decade := by
    have hn := newline_not_mem_toDigits d.decade.natAbs
    simp only [exponentText]
    by_cases hs : d.decade < 0
    · rw [if_pos hs]
      split <;> simp [hn]
    · rw [if_neg hs]
      split <;> simp [hn]
  simp only [scientific, List.mem_append, not_or]
  refine ⟨⟨fun h => hd (List.mem_of_mem_take h), ?_⟩, ?_⟩
  · split
    · exact List.not_mem_nil
    · exact List.not_mem_cons_of_ne_of_not_mem (by decide) fun h => hd (List.mem_of_mem_drop h)
  · exact List.not_mem_cons_of_ne_of_not_mem (by decide) hx

end Decimal

/-- What is printed of a magnitude. -/
theorem Magnitude.generalText?_eq_some {precision : Nat} {m : Magnitude} {digits : List Char}
    (h : m.generalText? precision = some digits) :
    digits = if isPositional precision (m.toDecimal.roundTo precision).decade
      then (m.toDecimal.roundTo precision).positional else (m.toDecimal.roundTo precision).scientific := by
  unfold Magnitude.generalText? at h
  dsimp only at h
  split at h
  · cases h
  · split at h
    · rename_i hx
      rw [if_pos hx]
      split at h
      · cases h
      · exact (Option.some.inj h).symm
    · rename_i hx
      rw [if_neg hx]
      exact (Option.some.inj h).symm

theorem Magnitude.generalText?_forms {precision : Nat} {m : Magnitude} {digits : List Char}
    (h : m.generalText? precision = some digits) :
    digits = (m.toDecimal.roundTo precision).positional ∨ digits = (m.toDecimal.roundTo precision).scientific := by
  rw [Magnitude.generalText?_eq_some h]
  split
  · exact .inl rfl
  · exact .inr rfl

/-- The greatest precision at which every number can be printed. -/
def maxPrecision : Nat := 65532

namespace Binary64

theorem newline_not_mem_signText (negative : Bool) : '\n' ∉ signText negative := by cases negative <;> decide

theorem onOneLine_shortestText (v : Binary64) : OnOneLine v.shortestText := by
  cases v with
  | nan => decide
  | infinite negative => cases negative <;> decide
  | finite negative m =>
    simp only [OnOneLine, shortestText, String.toList_ofList, List.mem_append, not_or]
    exact ⟨newline_not_mem_signText negative, Decimal.newline_not_mem_positional _⟩

theorem onOneLine_generalText? {precision : Nat} {v : Binary64} {text : String}
    (h : v.generalText? precision = some text) :
    OnOneLine text := by
  cases v with
  | nan =>
    obtain rfl := Option.some.inj h
    decide
  | infinite negative =>
    obtain rfl := Option.some.inj h
    cases negative <;> decide
  | finite negative m =>
    unfold generalText? at h
    dsimp only at h
    split at h
    · obtain rfl := Option.some.inj h
      cases negative <;> decide
    · obtain ⟨digits, hd, rfl⟩ := Option.map_eq_some_iff.mp h
      have hn : '\n' ∉ digits := by
        rcases Magnitude.generalText?_forms hd with rfl | rfl
        · exact Decimal.newline_not_mem_positional _
        · exact Decimal.newline_not_mem_scientific _
      simp only [OnOneLine, String.toList_ofList, List.mem_append, not_or]
      exact ⟨newline_not_mem_signText negative, hn⟩

/-- In positional form a number has at most three zeros behind the point before its first digit. -/
theorem generalText?_isSome {precision : Nat} (h : precision ≤ maxPrecision) (v : Binary64) :
    ∃ text, v.generalText? precision = some text := by
  cases v with
  | nan => exact ⟨_, rfl⟩
  | infinite negative => exact ⟨_, rfl⟩
  | finite negative m =>
    unfold generalText?
    dsimp only
    by_cases hz : m = .zero
    · rw [if_pos hz]
      exact ⟨_, rfl⟩
    · rw [if_neg hz]
      have hp : max precision 1 ≤ maxPrecision := Nat.max_le.mpr ⟨h, by decide⟩
      unfold Magnitude.generalText? maxPlaces
      generalize max precision 1 = count at hp
      unfold maxPrecision at hp
      rw [if_neg (by omega)]
      dsimp only
      by_cases hx : isPositional count (m.toDecimal.roundTo count).decade = true
      · rw [if_pos hx]
        simp only [isPositional, Bool.and_eq_true, decide_eq_true_eq] at hx
        rw [if_neg (by omega)]
        exact ⟨_, rfl⟩
      · rw [if_neg hx]
        exact ⟨_, rfl⟩

end Binary64

/-! ## Tokens and messages -/

theorem onOneLine_of_isIdentifier {name : String} (h : isIdentifier name = true) : OnOneLine name := by
  unfold isIdentifier at h
  unfold OnOneLine
  split at h
  · cases h
  · rename_i c cs hc
    rw [hc]
    rw [Bool.and_eq_true, List.all_eq_true] at h
    intro hm
    rcases List.mem_cons.mp hm with rfl | hm
    · exact absurd h.1 (by decide)
    · exact absurd (h.2 _ hm) (by decide)

theorem onOneLine_spelling {t : Token} (h : t.Spelled) : OnOneLine t.spelling := by
  cases t with
  | number v => exact Binary64.onOneLine_shortestText v
  | name n => exact onOneLine_of_isIdentifier h.identifier
  | keyword k => cases k <;> decide
  | symbol s => cases s <;> decide
  | endOfInput => decide

theorem onOneLine_nat (n : Nat) : OnOneLine (toString n) := by
  show '\n' ∉ (toString n).toList
  rw [Nat.toString_eq_ofList_toDigits, String.toList_ofList]
  exact Decimal.newline_not_mem_toDigits n

theorem onOneLine_int (n : Int) : OnOneLine (toString n) := by
  cases n with
  | ofNat n => exact onOneLine_nat n
  | negSucc n =>
    show OnOneLine ("-" ++ toString (n + 1))
    exact onOneLine_append.mpr ⟨by decide, onOneLine_nat _⟩

theorem onOneLine_char {c : Char} (h : isBlank c = false) : OnOneLine c.toString := by
  intro hm
  have hc : '\n' ∈ [c] := by simpa using hm
  obtain rfl := List.mem_singleton.mp hc
  exact absurd h (by decide)

theorem Mistake.onOneLine_message {m : Mistake} (h : m.Spelled) : OnOneLine m.message := by
  unfold message
  cases m with
  | strayCharacter c =>
    have hc : OnOneLine c.toString := onOneLine_char (show isBlank c = false from h)
    exact onOneLine_append.mpr ⟨by decide, onOneLine_quoted.mpr hc⟩
  | expected wanted found =>
    have hw : OnOneLine wanted.char.toString := by cases wanted <;> decide
    simp +decide only [onOneLine_append, onOneLine_quoted, hw, onOneLine_spelling h]
  | operandExpected found => simp +decide only [onOneLine_append, onOneLine_quoted, onOneLine_spelling h]
  | nameExpected found => simp +decide only [onOneLine_append, onOneLine_quoted, onOneLine_spelling h]
  | exponentNoNumber found => simp +decide only [onOneLine_append, onOneLine_quoted, onOneLine_spelling h]
  | equalsMissing name =>
    simp +decide only [onOneLine_append, onOneLine_quoted, onOneLine_of_isIdentifier h.identifier]
  | declaredTwice name =>
    simp +decide only [onOneLine_append, onOneLine_quoted, onOneLine_of_isIdentifier h.identifier]
  | undeclared name =>
    simp +decide only [onOneLine_append, onOneLine_quoted, onOneLine_of_isIdentifier h.identifier]
  | inputEnded => decide
  | divisionByZero => decide
  | negativeRoot value => simp +decide only [onOneLine_append, Binary64.onOneLine_shortestText]
  | exponentNotWhole value => simp +decide only [onOneLine_append, Binary64.onOneLine_shortestText]
  | exponentNegative exponent => simp +decide only [onOneLine_append, onOneLine_int]
  | exponentTooLarge value => simp +decide only [onOneLine_append, Binary64.onOneLine_shortestText]

theorem onOneLine_onLine (line : Nat) {text : String} (h : OnOneLine text) :
    OnOneLine (Failure.onLine line text) := by
  have hfirst : OnOneLine "Error on line " := by decide
  have hcolon : OnOneLine ": " := by decide
  have hstop : OnOneLine "." := by decide
  show OnOneLine ("Error on line " ++ toString line ++ ": " ++ text ++ ".")
  simp only [onOneLine_append]
  exact ⟨⟨⟨⟨hfirst, onOneLine_nat line⟩, hcolon⟩, h⟩, hstop⟩

theorem Failure.onOneLine_message {line : Nat} {m : Mistake} (h : m.Spelled) : OnOneLine (mistake line m).message :=
  onOneLine_onLine line (Mistake.onOneLine_message h)

end Reckoner
