/-
  Reckoner.Proofs.Below — the same text, further down.

  A scanner over lines is told by what is left of the text and by the number of lines of the whole:
  the line of an answer is what the lines that are left leave of that number. So two scanners that
  have the same left to read, but for blanks in front, give the same answers, the lines of one as
  much below those of the other as its source is longer.

  - `Left.next_of_some`, `Left.next_of_none`: the next answer, from what is left.
  - `next_below`, `inStep_below`: a token of two such scanners, so that all else is in step.
  - `values_below`: the values of two such desks, or the same mistake on a line further down.
-/

import Reckoner.Proofs.Evaluated
import Reckoner.Proofs.InStep
import Reckoner.Proofs.LineByLine

namespace Reckoner

/-- The failure `n` lines further down. -/
def Failure.later (n : Nat) : Failure → Failure
  | mistake line m => mistake (line + n) m
  | heldTwice line => heldTwice (line + n)
  | io message => io message

def Failure.IsLater (n : Nat) (f g : Failure) : Prop := g = f.later n

/-! ## What is left to read -/

namespace Scanner

/-- `text` is left to read of a source of `total` lines, apart from a token that was put back. -/
structure Left (text : List Char) (total : Nat) (s : Scanner) : Prop where
  lined : Lined s.text s.reads
  left : s.text ++ joined s.reads = text
  lines : s.line + s.reads.length = total

variable {text rest : List Char} {total : Nat} {s t : Scanner}

theorem left_ofPieces (chunks : List (List UInt8)) :
    Left (Utf8.decode chunks.flatten) (lineCount (Utf8.decode chunks.flatten)) (ofPieces (chunks.map .bytes)) := by
  have h := at_ofPieces chunks
  exact ⟨h.lined, Source.joined_reads chunks, h.lines⟩

theorem left_ofString (source : String) :
    Left source.toList (lineCount source.toList) (ofPieces (Source.ofString source)) := by
  have h := left_ofPieces [source.toUTF8.toList]
  rwa [List.flatten_singleton, Utf8.decode_toUTF8] at h

theorem Left.forget (h : Left text total s) (held : Option Token) : Left text total { s with held } :=
  ⟨h.lined, h.left, h.lines⟩

theorem Left.lexemes (h : Left text total s) : s.lexemes = s.held.toList.map .token ++ Lexeme.all text := by
  rw [Scanner.lexemes, ← h.left, all_joined h.lined]

theorem Left.unbroken (h : Left text total s) : s.Unbroken := allLines_of_lined h.lined

/-- Behind blanks the input has ended, on the last line. -/
theorem Left.next_of_none (h : Left text total s) (hs : s.held = none) (hn : Lexeme.next? text = none) :
    s.next = (.ok .endOfInput, { line := total, reads := [], ended := true }) := by
  have ha := advance_lined h.lined s.ended s.line
  rw [h.left, hn, h.lines] at ha
  rw [next, hs]
  exact ha

/-- The answer is the first lexeme, and its line is told from the lines that are left. -/
theorem Left.next_of_some (h : Left text total s) (hs : s.held = none) {l : Lexeme}
    (hn : Lexeme.next? text = some (l, rest)) :
    s.next.1 = l.answer s.next.2.line ∧ Left rest total s.next.2 ∧
      s.next.2.line + lineCount (text.dropWhile isBlank) = total + 1 := by
  have ha := advance_lined h.lined s.ended s.line
  rw [h.left, hn, h.lines] at ha
  have hnext : s.next = advance s.ended s.text s.line s.reads := by rw [next, hs]
  rw [← hnext] at ha
  refine ⟨ha.answer, ⟨ha.lined, ha.left, ha.lines⟩, ?_⟩
  have hbehind := ha.behind
  have hlines := ha.lines
  omega

theorem left_next_of_none (h : Left text total s) (hs : s.held = none) (hn : Lexeme.next? text = none) :
    Left [] total s.next.2 := by
  rw [h.next_of_none hs hn]
  exact ⟨.inl (by simp), rfl, rfl⟩

/-! ## Further down -/

/-- `t` has left to read what `s` has, but for blanks in front, and its source has `n` lines more. A
    token that was put back was noticed `n` lines further down. -/
structure Below (n : Nat) (s t : Scanner) : Prop where
  held : t.held = s.held
  line : s.held ≠ none → t.line = s.line + n
  left : ∃ text text' total, Left text total s ∧ Left text' (total + n) t ∧
    text'.dropWhile isBlank = text.dropWhile isBlank

/-- The same, and the last answer was given `n` lines further down. -/
structure BelowOn (n : Nat) (s t : Scanner) : Prop where
  line : t.line = s.line + n
  below : Below n s t

variable {n : Nat}

theorem BelowOn.hold (h : BelowOn n s t) (held : Option Token) : BelowOn n { s with held } { t with held } := by
  obtain ⟨hl, -, -, text, text', total, hs, ht, hb⟩ := h
  exact ⟨hl, rfl, fun _ => hl, text, text', total, hs.forget held, ht.forget held, hb⟩

theorem below_of_left {text' : List Char} {total' : Nat} (hs : Left text total s) (ht : Left text' total' t)
    (hn : total' = total + n) (hheld : s.held = none) (hheld' : t.held = none)
    (hb : text'.dropWhile isBlank = text.dropWhile isBlank) : Below n s t := by
  subst hn
  exact ⟨hheld'.trans hheld.symm, fun h => absurd hheld h, text, text', total, hs, ht, hb⟩

/-- Blanks in front make no difference to the first lexeme. -/
theorem next?_of_dropWhile {text text' : List Char} (h : text'.dropWhile isBlank = text.dropWhile isBlank) :
    Lexeme.next? text' = Lexeme.next? text := by
  rw [Lexeme.next?, Lexeme.next?, h]

theorem answer_below {s t : Scanner} (l : Lexeme) (h : BelowOn n s t) :
    After (Failure.IsLater n) (BelowOn n) (l.answer s.line, s) (l.answer t.line, t) := by
  cases l with
  | token u => exact .ok u h
  | stray c =>
    have hf : Failure.IsLater n (.mistake s.line (.strayCharacter c)) (.mistake (s.line + n) (.strayCharacter c)) := rfl
    rw [h.line]
    exact .error hf h

theorem next_below (h : Below n s t) : After (Failure.IsLater n) (BelowOn n) s.next t.next := by
  obtain ⟨hheld, hline, text, text', total, hs, ht, hb⟩ := h
  rcases hh : s.held with _ | u
  · rw [hh] at hheld
    rcases hn : Lexeme.next? text with _ | ⟨l, rest⟩
    · have hn' := (next?_of_dropWhile hb).trans hn
      have hbelow := below_of_left (left_next_of_none hs hh hn) (left_next_of_none ht hheld hn') rfl (held_next s)
        (held_next t) rfl
      rw [hs.next_of_none hh hn, ht.next_of_none hheld hn'] at hbelow ⊢
      exact .ok _ ⟨rfl, hbelow⟩
    · obtain ⟨ha, hleft, hl⟩ := hs.next_of_some hh hn
      obtain ⟨ha', hleft', hl'⟩ := ht.next_of_some hheld ((next?_of_dropWhile hb).trans hn)
      have hline : t.next.2.line = s.next.2.line + n := by
        rw [hb] at hl'
        omega
      have hanswer := answer_below l ⟨hline, below_of_left hleft hleft' rfl (held_next s) (held_next t) rfl⟩
      rwa [← ha, ← ha'] at hanswer
  · have hline := hline (by rw [hh]; exact Option.some_ne_none u)
    rw [next, next, hheld, hh]
    exact .ok u ⟨hline, rfl, fun _ => hline, text, text', total, hs.forget none, ht.forget none, hb⟩

/-- In step with a scanner further down. -/
theorem inStep_below (n : Nat) : InStep (Failure.IsLater n) (Below n) (BelowOn n) where
  next := next_below
  again := BelowOn.below
  hold := by
    intro s t h hs ht u
    exact h.hold (some u)
  mistake := by
    intro s t h m
    rw [Failure.IsLater, h.line]
    rfl

end Scanner

/-! ## Desks -/

namespace Desk

open Scanner

variable {n : Nat} {d e : Desk}

/-- A desk further down has the same values, or the same mistake further down. -/
theorem values_below (h : Paired (Scanner.Below n) d e) : e.values = d.values.mapError (Failure.later n) := by
  have hnext := nextValue_inStep (inStep_below n) h
  fun_induction values d generalizing e with
  | case1 d f after hn =>
    rw [hn] at hnext
    generalize he : e.nextValue = b at hnext
    cases hnext with
    | error hf hs =>
      rw [values_eq, he, hf]
      rfl
  | case2 d after hn =>
    rw [hn] at hnext
    generalize he : e.nextValue = b at hnext
    cases hnext
    rw [values_eq, he]
    rfl
  | case3 d v after hn ih =>
    rw [hn] at hnext
    generalize he : e.nextValue = b at hnext
    cases hnext with
    | ok _ hs =>
      have hbelow := hs.again (inStep_below n)
      rw [values_of_value he, ih hbelow (nextValue_inStep (inStep_below n) hbelow)]
      rcases after.values with f | vs <;> rfl

end Desk

end Reckoner
