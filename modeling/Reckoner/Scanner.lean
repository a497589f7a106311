/-
  Reckoner.Scanner — tokens on demand.

  A scanner reads its source a line at a time and only when a token is asked for and the rest
  of the current line is blank. One token may be put back, to be the next one again. Skipping
  goes by characters, not by tokens, up to and including a given one.

  - `unread_next_le`, `unread_next_lt`, `unread_skipPast_le`: what is left to read never
    grows, and every token but the end of the input, and every stray character, lessens it.
-/

import Reckoner.Failure
import Reckoner.Source
import Reckoner.Token.Lexeme

namespace Reckoner

structure Scanner where
  /-- The token that was put back. -/
  held : Option Token := none
  /-- What is left of the current line. -/
  text : List Char := []
  /-- The number of lines read. -/
  line : Nat := 0
  /-- The reads to come. -/
  reads : List Read
  /-- The end of the source was met. -/
  ended : Bool := false
  deriving DecidableEq

namespace Scanner

def ofPieces (pieces : List Piece) : Scanner := { reads := Source.reads pieces }

/-- The next token of the text or of the lines behind it. -/
def advance (ended : Bool) (text : List Char) (line : Nat) (reads : List Read) :
    Except Failure Token × Scanner :=
  match Lexeme.next? text, reads with
  | some (.token t, rest), reads => (.ok t, { text := rest, line, reads, ended })
  | some (.stray c, rest), reads =>
    (.error (.mistake line (.strayCharacter c)), { text := rest, line, reads, ended })
  | none, [] => (.ok .endOfInput, { line, reads := [], ended := true })
  | none, .failure message :: reads => (.error (.io message), { line, reads, ended })
  | none, .line text :: reads => advance ended text (line + 1) reads

/-- The token that was put back, or else the next one of the source. -/
def next (s : Scanner) : Except Failure Token × Scanner :=
  match s.held with
  | some t => (.ok t, { s with held := none })
  | none => advance s.ended s.text s.line s.reads

def putBack (t : Token) (s : Scanner) : Except Failure Unit × Scanner :=
  match s.held with
  | some _ => (.error (.heldTwice s.line), s)
  | none => (.ok (), { s with held := some t })

/-- Goes behind the next `c` in the text or in the lines behind it. -/
def seek (c : Char) (ended : Bool) (text : List Char) (line : Nat) (reads : List Read) :
    Except Failure Unit × Scanner :=
  match text.dropWhile (· != c), reads with
  | _ :: rest, reads => (.ok (), { text := rest, line, reads, ended })
  | [], [] => (.ok (), { line, reads := [], ended := true })
  | [], .failure message :: reads => (.error (.io message), { line, reads, ended })
  | [], .line text :: reads => seek c ended text (line + 1) reads

/-- Goes behind the next `c`, or to the end of the source. A token that was put back is
    dropped, and is the end of it if it is `c` itself. -/
def skipPast (c : Char) (s : Scanner) : Except Failure Unit × Scanner :=
  match s.held.bind Token.symbol? with
  | some symbol => if symbol.char = c then (.ok (), { s with held := none }) else seek c s.ended s.text s.line s.reads
  | none => seek c s.ended s.text s.line s.reads

/-! ## What is left to read -/

def heldSize : Option Token → Nat
  | none => 0
  | some t => if t = .endOfInput then 0 else 1

def readsSize (reads : List Read) : Nat :=
  match reads with
  | [] => 0
  | .line text :: reads => text.length + readsSize reads
  | .failure _ :: reads => readsSize reads

/-- The characters that are left to read, and one for a token that was put back, unless it is
    the end of the input. -/
def unread (s : Scanner) : Nat := heldSize s.held + s.text.length + readsSize s.reads

theorem held_advance (ended : Bool) (text : List Char) (line : Nat) (reads : List Read) :
    (advance ended text line reads).2.held = none := by
  fun_induction advance ended text line reads with
  | case1 => rfl
  | case2 => rfl
  | case3 => rfl
  | case4 => rfl
  | case5 _ _ _ _ _ ih => exact ih

theorem unread_advance_le (ended : Bool) (text : List Char) (line : Nat) (reads : List Read) :
    (advance ended text line reads).2.unread ≤ text.length + readsSize reads := by
  fun_induction advance ended text line reads with
  | case1 text line reads t rest h => have := Lexeme.length_next?_lt h; simp only [unread, heldSize]; omega
  | case2 text line reads c rest h => have := Lexeme.length_next?_lt h; simp only [unread, heldSize]; omega
  | case3 => simp [unread, heldSize, readsSize]
  | case4 text line message reads => simp [unread, heldSize, readsSize]
  | case5 text line next reads h ih => simp only [readsSize]; omega

/-- The answer took something from the source: a token other than the end of the input, or a
    character that begins none. -/
def Took : Except Failure Token → Prop
  | .ok t => t ≠ .endOfInput
  | .error f => f.isRecoverable = true

theorem unread_advance_lt {ended : Bool} {text : List Char} {line : Nat} {reads : List Read}
    (h : Took (advance ended text line reads).1) :
    (advance ended text line reads).2.unread < text.length + readsSize reads := by
  fun_induction advance ended text line reads with
  | case1 => have := Lexeme.length_next?_lt (by assumption); simp only [unread, heldSize]; omega
  | case2 => have := Lexeme.length_next?_lt (by assumption); simp only [unread, heldSize]; omega
  | case3 => exact absurd rfl h
  | case4 => exact absurd h (by simp [Took, Failure.isRecoverable])
  | case5 _ _ _ _ _ ih => have := ih h; simp only [readsSize]; omega

theorem held_next (s : Scanner) : s.next.2.held = none := by
  unfold next
  split
  · rfl
  · exact held_advance _ _ _ _

theorem unread_next_le (s : Scanner) : s.next.2.unread ≤ s.unread := by
  unfold next
  split
  · simp only [unread, heldSize]; omega
  · have := unread_advance_le s.ended s.text s.line s.reads
    simp only [unread] at this ⊢
    omega

theorem unread_next_lt {s : Scanner} (h : Took s.next.1) : s.next.2.unread < s.unread := by
  unfold next at h ⊢
  split
  · rename_i t ht
    simp only [ht] at h
    have : t ≠ .endOfInput := h
    simp only [unread, ht, heldSize, if_neg this]
    omega
  · rename_i hn
    simp only [hn] at h
    have := unread_advance_lt h
    simp only [unread] at this ⊢
    omega

theorem putBack_of_held_none {s : Scanner} (h : s.held = none) (t : Token) :
    s.putBack t = (.ok (), { s with held := some t }) := by
  unfold putBack
  rw [h]

theorem unread_hold {s : Scanner} (h : s.held = none) (t : Token) :
    ({ s with held := some t } : Scanner).unread = heldSize (some t) + s.unread := by
  simp only [unread, h]
  simp only [heldSize]
  omega

theorem heldSize_le (t : Token) : heldSize (some t) ≤ 1 := by
  unfold heldSize
  dsimp only
  split <;> decide

/-- A token taken from the source counts for no more when it is put back. -/
theorem unread_hold_next_le {s : Scanner} {t : Token} (h : s.next.1 = .ok t) :
    ({ s.next.2 with held := some t } : Scanner).unread ≤ s.unread := by
  rw [unread_hold (held_next s)]
  by_cases ht : t = .endOfInput
  · subst ht
    have := unread_next_le s
    simp only [heldSize, if_true]
    omega
  · have := unread_next_lt (s := s) (by rw [h]; exact ht)
    have := heldSize_le t
    omega

theorem unread_token_le {s after : Scanner} {t : Token} (h : s.next = (.ok t, after)) :
    heldSize (some t) + after.unread ≤ s.unread := by
  have hle := unread_hold_next_le (s := s) (t := t) (by rw [h])
  rwa [unread_hold (held_next s), h] at hle

theorem unread_putBack_le (t : Token) (s : Scanner) : (s.putBack t).2.unread ≤ heldSize (some t) + s.unread := by
  unfold putBack
  split
  · exact Nat.le_add_left _ _
  · rename_i h
    exact Nat.le_of_eq (unread_hold h t)

theorem unread_seek_le (c : Char) (ended : Bool) (text : List Char) (line : Nat) (reads : List Read) :
    (seek c ended text line reads).2.unread ≤ text.length + readsSize reads := by
  fun_induction seek c ended text line reads with
  | case1 text line reads d rest h =>
    have := Lexeme.length_dropWhile_le (p := (· != c)) text
    rw [h, List.length_cons] at this
    simp only [unread, heldSize]
    omega
  | case2 => simp [unread, heldSize, readsSize]
  | case3 text line message reads => simp [unread, heldSize, readsSize]
  | case4 text line next reads h ih => simp only [readsSize]; omega

theorem unread_skipPast_le (c : Char) (s : Scanner) : (s.skipPast c).2.unread ≤ s.unread := by
  have := unread_seek_le c s.ended s.text s.line s.reads
  unfold skipPast
  split
  · split
    · simp only [unread, heldSize]; omega
    · simp only [unread] at this ⊢; omega
  · simp only [unread] at this ⊢; omega

end Scanner

end Reckoner
