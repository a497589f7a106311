/-
  Reckoner.Proofs.Reading — what a scanner reads, token after token.

  - `next_lexemes`: a scanner none of whose reads fail answers with its lexemes, one by one,
    and then with the end of the input.
  - `lexemes_hold`: a token that was put back is the first lexeme again.
-/

import Reckoner.Proofs.Lexing
import Reckoner.Proofs.Lines
import Reckoner.Scanner

namespace Reckoner

/-! ## Lexemes of a text -/

namespace Lexeme

theorem byteLength_append (a b : List Char) : byteLength (a ++ b) = byteLength a + byteLength b := by
  induction a with
  | nil => simp [byteLength]
  | cons c a ih => simp only [List.cons_append, byteLength, ih, Nat.add_assoc]

theorem spansFrom_of_none {cs : List Char} (h : next? cs = none) (offset : Nat) : spansFrom offset cs = [] := by
  unfold spansFrom
  split
  · rfl
  · rename_i hs
    rw [h] at hs
    cases hs

theorem spansFrom_of_some {cs rest : List Char} {l : Lexeme} (h : next? cs = some (l, rest)) (offset : Nat) :
    ∃ span : Span, span.lexeme = l ∧ span.start = offset + byteLength (cs.takeWhile isBlank) ∧
      cs = cs.takeWhile isBlank ++ (span.text ++ rest) ∧
      spansFrom offset cs = span :: spansFrom (span.start + byteLength span.text) rest := by
  obtain ⟨text, ht⟩ := suffix_of_next? h
  let start := offset + byteLength (cs.takeWhile isBlank)
  refine ⟨⟨l, text, start, start + byteLength text⟩, rfl, rfl, ?_, ?_⟩
  · rw [ht, List.takeWhile_append_dropWhile]
  · rw [spansFrom]
    split
    · rename_i hn
      rw [h] at hn
      cases hn
    · rename_i l' rest' hs
      rw [h] at hs
      obtain ⟨rfl, rfl⟩ := Prod.mk.inj (Option.some.inj hs)
      simp [← ht, start]

/-- What holds of blank text, and of a text if it holds behind its first lexeme, holds of every text. -/
theorem textInduction {motive : List Char → Prop} (blank : ∀ cs, next? cs = none → motive cs)
    (lexeme : ∀ cs l rest, next? cs = some (l, rest) → motive rest → motive cs) (cs : List Char) : motive cs := by
  induction hn : cs.length using Nat.strongRecOn generalizing cs with
  | ind n ih =>
    rcases h : next? cs with _ | ⟨l, rest⟩
    · exact blank cs h
    · exact lexeme cs l rest h (ih rest.length (hn ▸ length_next?_lt h) rest rfl)

/-- Where a text begins makes no difference to what it is read as. -/
theorem lexemes_spansFrom (offset : Nat) (cs : List Char) : (spansFrom offset cs).map (·.lexeme) = all cs := by
  suffices h : ∀ o o', (spansFrom o cs).map (·.lexeme) = (spansFrom o' cs).map (·.lexeme) from h offset 0
  induction cs using textInduction with
  | blank cs h =>
    intro o o'
    rw [spansFrom_of_none h, spansFrom_of_none h]
  | lexeme cs l rest h ih =>
    intro o o'
    obtain ⟨span, hl, -, -, hs⟩ := spansFrom_of_some h o
    obtain ⟨span', hl', -, -, hs'⟩ := spansFrom_of_some h o'
    rw [hs, hs', List.map_cons, List.map_cons, hl, hl', ih]

theorem all_of_none {cs : List Char} (h : next? cs = none) : all cs = [] := by
  rw [all, spans, spansFrom_of_none h]
  rfl

@[simp] theorem all_nil : all [] = [] := all_of_none rfl

theorem all_of_some {cs rest : List Char} {l : Lexeme} (h : next? cs = some (l, rest)) :
    all cs = l :: all rest := by
  obtain ⟨span, hl, -, -, hs⟩ := spansFrom_of_some h 0
  rw [all, spans, hs, List.map_cons, lexemes_spansFrom, hl]

end Lexeme

/-! ## Lexemes of a scanner -/

/-- What a scanner answers when it comes to a lexeme on the given line. -/
def Lexeme.answer (line : Nat) : Lexeme → Except Failure Token
  | token t => .ok t
  | stray c => .error (.mistake line (.strayCharacter c))

namespace Scanner

/-- None of the reads to come fails. -/
def Unbroken (s : Scanner) : Prop := AllLines s.reads

/-- What is left to read as lexemes, the token that was put back among them. -/
def lexemes (s : Scanner) : List Lexeme :=
  s.held.toList.map .token ++ (Lexeme.all s.text ++ s.reads.flatMap fun read => Lexeme.all read.text)

/-- The scanner from which `count` tokens have been asked for. -/
def after : Nat → Scanner → Scanner
  | 0, s => s
  | count + 1, s => s.next.2.after count

theorem after_succ (count : Nat) (s : Scanner) : s.after (count + 1) = (s.after count).next.2 := by
  induction count generalizing s with
  | zero => rfl
  | succ count ih => exact ih s.next.2

theorem advance_of_some {text rest : List Char} {l : Lexeme} (h : Lexeme.next? text = some (l, rest)) (ended : Bool)
    (line : Nat) (reads : List Read) :
    advance ended text line reads = (l.answer line, { text := rest, line, reads, ended }) := by
  cases l <;> (rw [advance.eq_def, h]; rfl)

theorem advance_of_none {text : List Char} (h : Lexeme.next? text = none) (ended : Bool) (line : Nat) :
    advance ended text line [] = (.ok .endOfInput, { line, reads := [], ended := true }) := by
  rw [advance.eq_def, h]

theorem advance_of_blank {text : List Char} (h : Lexeme.next? text = none) (ended : Bool) (line : Nat)
    (next : List Char) (reads : List Read) :
    advance ended text line (.line next :: reads) = advance ended next (line + 1) reads := by
  rw [advance.eq_def, h]

theorem advance_lexemes {reads : List Read} (h : AllLines reads) (ended : Bool)
    (text : List Char) (line : Nat) :
    match Lexeme.all text ++ reads.flatMap fun read => Lexeme.all read.text with
    | [] => (advance ended text line reads).1 = .ok .endOfInput ∧ (advance ended text line reads).2.lexemes = []
    | l :: rest =>
      (advance ended text line reads).1 = l.answer (advance ended text line reads).2.line ∧
        (advance ended text line reads).2.lexemes = rest := by
  induction reads generalizing text line with
  | nil =>
    rcases hn : Lexeme.next? text with _ | ⟨l, rest⟩
    · rw [Lexeme.all_of_none hn, advance_of_none hn]
      exact ⟨rfl, by simp [lexemes]⟩
    · rw [Lexeme.all_of_some hn, advance_of_some hn]
      exact ⟨rfl, rfl⟩
  | cons read reads ih =>
    obtain ⟨next, rfl⟩ := h read List.mem_cons_self
    rcases hn : Lexeme.next? text with _ | ⟨l, rest⟩
    · rw [Lexeme.all_of_none hn, advance_of_blank hn]
      exact ih (fun r hr => h r (List.mem_cons_of_mem _ hr)) next (line + 1)
    · rw [Lexeme.all_of_some hn, advance_of_some hn]
      exact ⟨rfl, rfl⟩

/-- A scanner none of whose reads fail answers with its first lexeme, and leaves the others. -/
theorem next_lexemes {s : Scanner} (h : s.Unbroken) :
    match s.lexemes with
    | [] => s.next.1 = .ok .endOfInput ∧ s.next.2.lexemes = []
    | l :: rest => s.next.1 = l.answer s.next.2.line ∧ s.next.2.lexemes = rest := by
  rcases hh : s.held with _ | t
  · have := advance_lexemes h s.ended s.text s.line
    simpa [lexemes, next, hh] using this
  · simp [lexemes, next, hh, Lexeme.answer]

/-- The token that stands first: the end of the input behind the last lexeme, and none where a
    stray character stands. -/
def front? : List Lexeme → Option Token
  | [] => some .endOfInput
  | .token t :: _ => some t
  | .stray _ :: _ => none

theorem lexemes_next {s : Scanner} (h : s.Unbroken) : s.next.2.lexemes = s.lexemes.tail := by
  have := next_lexemes h
  rcases hl : s.lexemes with _ | ⟨l, rest⟩
  · rw [hl] at this
    exact this.2
  · rw [hl] at this
    exact this.2

theorem next_eq_ok_iff {s : Scanner} (h : s.Unbroken) {t : Token} :
    s.next.1 = .ok t ↔ front? s.lexemes = some t := by
  have := next_lexemes h
  rcases hl : s.lexemes with _ | ⟨l, rest⟩
  · rw [hl] at this
    rw [this.1]
    simp [front?]
  · rw [hl] at this
    rw [this.1]
    cases l <;> simp [Lexeme.answer, front?]

/-- A token that is not the end of the input was the first lexeme. -/
theorem lexemes_of_next {s : Scanner} (h : s.Unbroken) {t : Token} (hn : s.next.1 = .ok t) (ht : t ≠ .endOfInput) :
    s.lexemes = .token t :: s.next.2.lexemes := by
  have hf := (next_eq_ok_iff h).mp hn
  rw [lexemes_next h]
  match hl : s.lexemes, hf with
  | [], hf => exact absurd (Option.some.inj hf).symm ht
  | .token u :: rest, hf =>
    obtain rfl := Option.some.inj hf
    rfl

/-! ## Putting back -/

variable {s : Scanner}

theorem next_hold (h : s.held = none) (t : Token) : ({ s with held := some t } : Scanner).next = (.ok t, s) := by
  cases s
  obtain rfl := h
  rfl

theorem lexemes_hold (h : s.held = none) (t : Token) :
    ({ s with held := some t } : Scanner).lexemes = .token t :: s.lexemes := by
  simp [lexemes, h]

theorem unbroken_hold (h : s.Unbroken) (t : Token) : ({ s with held := some t } : Scanner).Unbroken := h

/-! ## No read fails later -/

theorem suffix_reads_advance (ended : Bool) (text : List Char) (line : Nat) (reads : List Read) :
    (advance ended text line reads).2.reads <:+ reads := by
  fun_induction advance ended text line reads with
  | case1 => exact List.suffix_refl _
  | case2 => exact List.suffix_refl _
  | case3 => exact List.suffix_refl _
  | case4 => exact List.suffix_cons _ _
  | case5 text line next reads h ih => exact ih.trans (List.suffix_cons _ _)

theorem suffix_reads_next (s : Scanner) : s.next.2.reads <:+ s.reads := by
  unfold next
  split
  · exact List.suffix_refl _
  · exact suffix_reads_advance _ _ _ _

theorem suffix_reads_seek (c : Char) (ended : Bool) (text : List Char) (line : Nat) (reads : List Read) :
    (seek c ended text line reads).2.reads <:+ reads := by
  fun_induction seek c ended text line reads with
  | case1 => exact List.suffix_refl _
  | case2 => exact List.suffix_refl _
  | case3 => exact List.suffix_cons _ _
  | case4 text line next reads h ih => exact ih.trans (List.suffix_cons _ _)

theorem suffix_reads_skipPast (c : Char) (s : Scanner) : (s.skipPast c).2.reads <:+ s.reads := by
  unfold skipPast
  split
  · split
    · exact List.suffix_refl _
    · exact suffix_reads_seek _ _ _ _ _
  · exact suffix_reads_seek _ _ _ _ _

theorem unbroken_of_suffix {s t : Scanner} (h : s.Unbroken) (hs : t.reads <:+ s.reads) : t.Unbroken :=
  fun read hr => h read (hs.subset hr)

theorem unbroken_ofPieces (chunks : List (List UInt8)) : (ofPieces (chunks.map .bytes)).Unbroken := by
  intro read hr
  simp only [ofPieces, Source.reads_bytes, List.mem_map] at hr
  obtain ⟨line, -, rfl⟩ := hr
  exact ⟨Utf8.decode line, rfl⟩

theorem unbroken_next {s : Scanner} (h : s.Unbroken) :
    s.next.2.Unbroken := unbroken_of_suffix h (suffix_reads_next s)

theorem unbroken_after {s : Scanner} (h : s.Unbroken) (count : Nat) : (s.after count).Unbroken := by
  induction count generalizing s with
  | zero => exact h
  | succ count ih => exact ih (unbroken_next h)

end Scanner

end Reckoner
