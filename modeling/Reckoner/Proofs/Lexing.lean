/-
  Reckoner.Proofs.Lexing — lexemes of a text, and of its lines.

  No lexeme holds a blank, so that a blank ends the text for the lexer: what stands before it is
  read as if nothing came behind.

  - `next?_append_blank`: the first lexeme of a text that goes on behind a blank.
  - `suffix_of_next?`: what is left behind a lexeme is the end of the text.
  - `spelled_of_next?`: a name that is read is an identifier and no keyword; a stray
    character is no blank.
-/

import Reckoner.Token.Lexeme

namespace Reckoner

/-! ## A blank ends the text -/

theorem takeWhile_append_stop {p : Char → Bool} {c : Char} (hp : p c = false) (a b : List Char) :
    (a ++ c :: b).takeWhile p = a.takeWhile p := by
  induction a with
  | nil => simp [hp]
  | cons d a ih =>
    by_cases hd : p d = true
    · simp [hd, ih]
    · simp [hd]

theorem dropWhile_append_stop {p : Char → Bool} {c : Char} (hp : p c = false) (a b : List Char) :
    (a ++ c :: b).dropWhile p = a.dropWhile p ++ c :: b := by
  induction a with
  | nil => simp [hp]
  | cons d a ih =>
    by_cases hd : p d = true
    · simp [hd, ih]
    · simp [hd]

theorem eq_of_isBlank {c : Char} (hc : isBlank c = true) :
    c = ' ' ∨ c = '\t' ∨ c = '\x0d' ∨ c = '\n' ∨ c = '\x0b' ∨ c = '\x0c' := by
  simpa only [isBlank, Bool.or_eq_true, decide_eq_true_eq, or_assoc] using hc

theorem isDigit_of_isBlank {c : Char} (hc : isBlank c = true) : c.isDigit = false := by
  rcases eq_of_isBlank hc with rfl | rfl | rfl | rfl | rfl | rfl <;> rfl

theorem isAlphanum_of_isBlank {c : Char} (hc : isBlank c = true) : c.isAlphanum = false := by
  rcases eq_of_isBlank hc with rfl | rfl | rfl | rfl | rfl | rfl <;> rfl

theorem isBlank_of_isAlphanum {c : Char} (h : c.isAlphanum = true) : isBlank c = false := by
  rw [Bool.eq_false_iff]
  intro hb
  rw [isAlphanum_of_isBlank hb] at h
  cases h

theorem isBlank_of_isAlpha {c : Char} (h : c.isAlpha = true) : isBlank c = false :=
  isBlank_of_isAlphanum (by rw [Char.isAlphanum, h, Bool.true_or])

theorem ne_of_isBlank {c d : Char} (hc : isBlank c = true) (hd : isBlank d = false) : c ≠ d := by
  rintro rfl
  rw [hc] at hd
  cases hd

namespace Literal

variable {c : Char}

theorem scanFraction_append_blank (hc : isBlank c = true) (a b : List Char) :
    scanFraction (a ++ c :: b) = ((scanFraction a).1, (scanFraction a).2 ++ c :: b) := by
  rcases a with _ | ⟨d, a⟩
  · have := ne_of_isBlank (d := '.') hc rfl
    simp [scanFraction, this]
  · by_cases hd : d = '.'
    · subst hd
      simp only [List.cons_append, scanFraction, takeWhile_append_stop (isDigit_of_isBlank hc),
        dropWhile_append_stop (isDigit_of_isBlank hc)]
    · simp [scanFraction, hd]

theorem scanSign_append_blank (hc : isBlank c = true) (a b : List Char) :
    scanSign (a ++ c :: b) = ((scanSign a).1, (scanSign a).2 ++ c :: b) := by
  rcases a with _ | ⟨d, a⟩
  · have hp := ne_of_isBlank (d := '+') hc rfl
    have hm := ne_of_isBlank (d := '-') hc rfl
    simp [scanSign, hp, hm]
  · simp only [List.cons_append, scanSign]
    split <;> rfl

theorem scanExponent_append_blank (hc : isBlank c = true) (a b : List Char) :
    scanExponent (a ++ c :: b) = ((scanExponent a).1, (scanExponent a).2 ++ c :: b) := by
  rcases a with _ | ⟨d, a⟩
  · have hl := ne_of_isBlank (d := 'e') hc rfl
    have hu := ne_of_isBlank (d := 'E') hc rfl
    simp [scanExponent, hl, hu]
  · simp only [List.cons_append, scanExponent, scanSign_append_blank hc,
      takeWhile_append_stop (isDigit_of_isBlank hc), dropWhile_append_stop (isDigit_of_isBlank hc)]
    split <;> rfl

theorem scan?_append_blank (hc : isBlank c = true) (a b : List Char) :
    scan? (a ++ c :: b) = (scan? a).map fun (l, rest) => (l, rest ++ c :: b) := by
  simp only [scan?, takeWhile_append_stop (isDigit_of_isBlank hc), dropWhile_append_stop (isDigit_of_isBlank hc),
    scanFraction_append_blank hc, scanExponent_append_blank hc]
  split <;> rfl

end Literal

namespace Lexeme

variable {c : Char}

theorem head_append_blank (hc : isBlank c = true) (d : Char) (a b : List Char) :
    head d (a ++ c :: b) = ((head d a).1, (head d a).2 ++ c :: b) := by
  unfold head
  by_cases hd : d.isAlpha = true
  · simp only [hd, if_true, takeWhile_append_stop (isAlphanum_of_isBlank hc),
      dropWhile_append_stop (isAlphanum_of_isBlank hc)]
  · simp only [hd, Bool.false_eq_true, if_false, ← List.cons_append, Literal.scan?_append_blank hc]
    cases Literal.scan? (d :: a) with
    | some found => rfl
    | none =>
      cases Symbol.ofChar? d with
      | some s => rfl
      | none => simp only [Option.map_none]; split <;> rfl

/-- What stands before a blank is read as if nothing came behind it. -/
theorem next?_append_blank (hc : isBlank c = true) (a b : List Char) :
    next? (a ++ c :: b) =
      match next? a with
      | some (l, rest) => some (l, rest ++ c :: b)
      | none => next? b := by
  induction a with
  | nil => simp [next?, hc]
  | cons d a ih =>
    by_cases hd : isBlank d = true
    · simpa only [next?, List.cons_append, List.dropWhile_cons, hd, if_true] using ih
    · simp [next?, hd, head_append_blank hc]

/-! ## What is left behind a lexeme -/

theorem suffix_of_head (c : Char) (cs : List Char) : (head c cs).2 <:+ cs := by
  unfold head
  split
  · exact List.dropWhile_suffix _
  · split
    · rename_i l rest hs
      have ht := Literal.text_append_of_scan? hs
      have hn := length_scan?_lt hs
      rcases hl : l.text with _ | ⟨d, text⟩
      · rw [hl, List.nil_append] at ht
        rw [ht] at hn
        exact absurd hn (Nat.lt_irrefl _)
      · rw [hl, List.cons_append, List.cons.injEq] at ht
        exact ⟨text, ht.2⟩
    · split
      · exact List.suffix_refl _
      · split <;> exact List.suffix_refl _

theorem suffix_of_next? {cs rest : List Char} {l : Lexeme} (h : next? cs = some (l, rest)) :
    rest <:+ cs.dropWhile isBlank := by
  unfold next? at h
  split at h
  · cases h
  · rename_i c cs hd
    have hs := suffix_of_head c cs
    rw [Option.some.inj h] at hs
    rw [hd]
    exact hs.trans (List.suffix_cons c cs)

end Lexeme

/-! ## What is read -/

/-- A letter, and letters and digits behind it. -/
def isIdentifier (name : String) : Bool :=
  match name.toList with
  | [] => false
  | c :: cs => c.isAlpha && cs.all Char.isAlphanum

/-- A name that a variable can be given. -/
structure IsVariable (name : String) : Prop where
  identifier : isIdentifier name = true
  notKeyword : ∀ k : Keyword, name ≠ k.spelling

/-- A token as the lexer makes it, or the end of the input. -/
def Token.Spelled : Token → Prop
  | name n => IsVariable n
  | _ => True

def Lexeme.Spelled : Lexeme → Prop
  | token t => t.Spelled
  | stray c => isBlank c = false

theorem Keyword.ne_spelling_of_ofSpelling? {name : String} (h : ofSpelling? name = none) (k : Keyword) :
    name ≠ k.spelling := by
  rintro rfl
  rw [ofSpelling?_spelling] at h
  cases h

namespace Lexeme

theorem spelled_ofName {name : String} (h : isIdentifier name = true) : (Token.ofName name).Spelled := by
  unfold Token.ofName
  split
  · trivial
  · rename_i hk
    exact ⟨h, Keyword.ne_spelling_of_ofSpelling? hk⟩

theorem spelled_head {c : Char} (hc : isBlank c = false) (cs : List Char) : (head c cs).1.Spelled := by
  unfold head
  split
  · rename_i ha
    refine spelled_ofName ?_
    simp only [isIdentifier, String.toList_ofList, ha, Bool.true_and]
    exact List.all_takeWhile
  · split
    · trivial
    · split
      · trivial
      · split
        · trivial
        · exact hc

/-- A name that is read is one that a variable can be given, and a stray character is no blank. -/
theorem spelled_of_next? {cs rest : List Char} {l : Lexeme} (h : next? cs = some (l, rest)) : l.Spelled := by
  unfold next? at h
  split at h
  · cases h
  · rename_i c tail hd
    have hc : isBlank c = false := by
      have := List.head?_dropWhile_not isBlank cs
      rwa [hd] at this
    have hs := spelled_head hc tail
    rwa [Option.some.inj h] at hs

theorem head_ne_endOfInput (c : Char) (cs : List Char) : (head c cs).1 ≠ .token .endOfInput := by
  unfold head
  split
  · unfold Token.ofName
    split <;> exact nofun
  · split
    · exact nofun
    · split
      · exact nofun
      · split <;> exact nofun

theorem ne_endOfInput_of_next? {cs rest : List Char} {l : Lexeme} (h : next? cs = some (l, rest)) :
    l ≠ .token .endOfInput := by
  unfold next? at h
  split at h
  · cases h
  · rename_i c tail _
    have hl := head_ne_endOfInput c tail
    rwa [Option.some.inj h] at hl

end Lexeme

end Reckoner
