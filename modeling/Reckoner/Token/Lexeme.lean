/-
  Reckoner.Token.Lexeme — text as a sequence of lexemes.

  Blanks separate lexemes and belong to none. At any other character the longest token that
  begins there is taken: a name or keyword, a literal, or a single character. A character
  that begins no token is a lexeme of its own, a stray one.

  - `length_head_le`: every lexeme takes a character at least.
  - `spans`: the lexemes of a text and where they stand.
-/

import Reckoner.Token.Basic
import Reckoner.Token.Literal

namespace Reckoner

/-- Space, tab, carriage return, line feed, vertical tab and form feed. -/
def isBlank (c : Char) : Bool :=
  c = ' ' || c = '\t' || c = '\x0d' || c = '\n' || c = '\x0b' || c = '\x0c'

inductive Lexeme where
  | token (t : Token)
  | stray (c : Char)
  deriving DecidableEq

namespace Lexeme

/-- The lexeme at a character that is no blank, and the text behind it. -/
def head (c : Char) (cs : List Char) : Lexeme × List Char :=
  if c.isAlpha then
    (.token (.ofName (String.ofList (c :: cs.takeWhile Char.isAlphanum))), cs.dropWhile Char.isAlphanum)
  else
    match Literal.scan? (c :: cs) with
    | some (l, rest) => (.token (.number l.value), rest)
    | none =>
      match Symbol.ofChar? c with
      | some s => (.token (.symbol s), cs)
      | none => if c = '#' then (.token (.keyword .declare), cs) else (.stray c, cs)

/-- The first lexeme of a text, if it is not blank, and the text behind it. -/
def next? (cs : List Char) : Option (Lexeme × List Char) :=
  match cs.dropWhile isBlank with
  | [] => none
  | c :: cs => some (head c cs)

theorem length_dropWhile_le {p : Char → Bool} (cs : List Char) : (cs.dropWhile p).length ≤ cs.length :=
  (List.dropWhile_sublist p).length_le

theorem length_scan?_lt {cs rest : List Char} {l : Literal} (h : Literal.scan? cs = some (l, rest)) :
    rest.length < cs.length := by
  have ht := congrArg List.length (Literal.text_append_of_scan? h)
  have hl : 0 < l.text.length := by
    rcases (Literal.wellFormed_of_scan? h).digit with hw | ⟨digits, hd, -⟩
    · have := List.length_pos_iff.mpr hw
      simp only [Literal.text, List.length_append]
      omega
    · rw [Option.mem_def] at hd
      simp only [Literal.text, hd, Literal.fractionText, List.length_append, List.length_cons]
      omega
  rw [List.length_append] at ht
  omega

theorem length_head_le (c : Char) (cs : List Char) : (head c cs).2.length ≤ cs.length := by
  unfold head
  split
  · exact length_dropWhile_le cs
  · split
    · rename_i h
      have := length_scan?_lt h
      rw [List.length_cons] at this
      exact Nat.le_of_lt_succ this
    · split
      · exact Nat.le_refl _
      · split <;> exact Nat.le_refl _

theorem length_next?_lt {cs rest : List Char} {l : Lexeme} (h : next? cs = some (l, rest)) :
    rest.length < cs.length := by
  unfold next? at h
  split at h
  · cases h
  · rename_i c r hd
    have hh := length_head_le c r
    have hc := length_dropWhile_le (p := isBlank) cs
    rw [Option.some.inj h] at hh
    rw [hd, List.length_cons] at hc
    exact Nat.lt_of_lt_of_le (Nat.lt_succ_of_le hh) hc

/-! ## Whole texts -/

/-- A lexeme with the bytes of the text it covers, from `start` to just before `stop`. -/
structure Span where
  lexeme : Lexeme
  text : List Char
  start : Nat
  stop : Nat
  deriving DecidableEq

/-- Length in UTF-8. -/
def byteLength : List Char → Nat
  | [] => 0
  | c :: cs => c.utf8Size + byteLength cs

def spansFrom (offset : Nat) (cs : List Char) : List Span :=
  match _h : next? cs with
  | none => []
  | some (l, rest) =>
    let body := cs.dropWhile isBlank
    let text := body.take (body.length - rest.length)
    let start := offset + byteLength (cs.takeWhile isBlank)
    let stop := start + byteLength text
    ⟨l, text, start, stop⟩ :: spansFrom stop rest
  termination_by cs.length
  decreasing_by exact length_next?_lt _h

def spans (cs : List Char) : List Span := spansFrom 0 cs

def all (cs : List Char) : List Lexeme := (spans cs).map (·.lexeme)

end Lexeme

end Reckoner
