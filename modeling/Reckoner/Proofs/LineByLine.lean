/-
  Reckoner.Proofs.LineByLine — reading line by line, and the whole text at once.

  A scanner decodes its source a line at a time and takes a token at a time from what is left
  of the line. The invariant `At text n s`: `n` answers have been given, the lexemes of what
  is left are those of the whole text from the `n`-th on, and the lines to come are those
  that the line count still lacks.

  - `lexemes_ofPieces`: the lexemes of all lines are those of the whole text.
  - `advance_lined`: one answer, in terms of the whole text that is left.
  - `next_after`: the `n`-th answer is the `n`-th lexeme of the decoded source, on its line.
-/

import Reckoner.Proofs.Reading

namespace Reckoner

/-! ## Lines of what is left -/

theorem IsLine.suffix {text rest : List Char} (h : IsLine text) (hs : rest <:+ text) : rest = [] ∨ IsLine rest := by
  obtain ⟨a, ha, rfl⟩ := h
  obtain ⟨b, hb⟩ := hs
  rcases List.eq_nil_or_concat rest with rfl | ⟨r, c, rfl⟩
  · exact .inl rfl
  · rw [List.concat_eq_append, ← List.append_assoc] at hb
    rw [List.concat_eq_append]
    obtain ⟨rfl, hc⟩ := List.append_inj' hb rfl
    obtain rfl := (List.cons.inj hc).1
    exact .inr ⟨r, fun hr => ha (List.mem_append_right _ hr), rfl⟩

theorem lined_suffix {text rest : List Char} {reads : List Read} (h : Lined text reads) (hs : rest <:+ text) :
    Lined rest reads := by
  match reads, h with
  | [], .inl h => exact .inl fun hr => h (hs.subset hr)
  | [], .inr h =>
    rcases h.suffix hs with rfl | h
    · exact .inl (by simp)
    · exact .inr h
  | .line next :: reads, ⟨h, hn, hl⟩ =>
    refine ⟨?_, hn, hl⟩
    rcases h with rfl | h
    · exact .inl (List.suffix_nil.mp hs)
    · exact h.suffix hs

theorem dropWhile_isBlank_of_none {cs : List Char} (h : Lexeme.next? cs = none) : cs.dropWhile isBlank = [] := by
  unfold Lexeme.next? at h
  split at h
  · assumption
  · cases h

theorem dropWhile_isBlank_of_some {cs rest : List Char} {l : Lexeme} (h : Lexeme.next? cs = some (l, rest)) :
    cs.dropWhile isBlank ≠ [] := by
  intro hd
  unfold Lexeme.next? at h
  rw [hd] at h
  cases h

theorem next?_of_blank {cs : List Char} (h : Lexeme.next? cs = none) (b : List Char) :
    Lexeme.next? (cs ++ b) = Lexeme.next? b := by
  unfold Lexeme.next?
  simp [List.dropWhile_append, dropWhile_isBlank_of_none h]

/-- A lexeme of a line is one of the text: what comes behind the line does not lengthen it. -/
theorem next?_of_lined {text rest : List Char} {l : Lexeme} {reads : List Read} (hl : Lined text reads)
    (h : Lexeme.next? text = some (l, rest)) :
    Lexeme.next? (text ++ joined reads) = some (l, rest ++ joined reads) := by
  match reads, hl with
  | [], _ => simpa [joined] using h
  | .line next :: reads, ⟨.inl he, _, _⟩ =>
    rw [he] at h
    cases h
  | .line next :: reads, ⟨.inr ⟨a, _, he⟩, _, _⟩ =>
    subst he
    have hblank : isBlank '\n' = true := rfl
    rw [Lexeme.next?_append_blank hblank] at h
    rw [List.append_assoc, List.singleton_append, Lexeme.next?_append_blank hblank]
    rcases ha : Lexeme.next? a with _ | ⟨l', rest'⟩
    · rw [ha] at h
      cases h
    · rw [ha] at h
      cases h
      simp

/-- The lexemes of a line come before those of what follows it. -/
theorem all_append_lined {reads : List Read} {text : List Char} (h : Lined text reads) :
    Lexeme.all (text ++ joined reads) = Lexeme.all text ++ Lexeme.all (joined reads) := by
  induction text using Lexeme.textInduction with
  | blank text ht =>
    rw [Lexeme.all_of_none ht, List.nil_append]
    have hb := next?_of_blank ht (joined reads)
    rcases hj : Lexeme.next? (joined reads) with _ | ⟨l, rest⟩
    · rw [Lexeme.all_of_none hj, Lexeme.all_of_none (hb.trans hj)]
    · rw [Lexeme.all_of_some hj, Lexeme.all_of_some (hb.trans hj)]
  | lexeme text l rest ht ih =>
    have hrest := lined_suffix h ((Lexeme.suffix_of_next? ht).trans (List.dropWhile_suffix _))
    rw [Lexeme.all_of_some ht, Lexeme.all_of_some (next?_of_lined h ht), ih hrest]
    rfl

/-- Read line by line, a text has the lexemes of all its lines. -/
theorem all_joined {reads : List Read} {text : List Char} (h : Lined text reads) :
    Lexeme.all (text ++ joined reads) = Lexeme.all text ++ reads.flatMap fun read => Lexeme.all read.text := by
  induction reads generalizing text with
  | nil =>
    show Lexeme.all (text ++ []) = Lexeme.all text ++ []
    rw [List.append_nil, List.append_nil]
  | cons read reads ih =>
    rcases read with next | message
    · rw [all_append_lined h]
      exact congrArg _ (ih h.2.2)
    · exact absurd h id

namespace Scanner

/-- The unread lexemes of a source are those of its whole decoded text. -/
theorem lexemes_ofPieces (chunks : List (List UInt8)) :
    (ofPieces (chunks.map .bytes)).lexemes = Lexeme.all (Utf8.decode chunks.flatten) := by
  have h := all_joined (Source.lined_reads chunks)
  rw [List.nil_append, Source.joined_reads] at h
  rw [h]
  rfl

/-- A scanner over lines that had `lines` lines, read and to come, with `text` left of them, has
    answered with the lexeme `l` and left `rest`. -/
structure Answered (text : List Char) (lines : Nat) (l : Lexeme) (rest : List Char)
    (a : Except Failure Token × Scanner) : Prop where
  answer : a.1 = l.answer a.2.line
  held : a.2.held = none
  lined : Lined a.2.text a.2.reads
  left : a.2.text ++ joined a.2.reads = rest
  lines : a.2.line + a.2.reads.length = lines
  /-- The line of the lexeme, and those behind it. -/
  behind : lineCount (text.dropWhile isBlank) = a.2.reads.length + 1

theorem answered_of_some {text rest : List Char} {l : Lexeme} {reads : List Read} (h : Lined text reads)
    (hn : Lexeme.next? text = some (l, rest)) (ended : Bool) (line : Nat) :
    Answered (text ++ joined reads) (line + reads.length) l (rest ++ joined reads)
      (advance ended text line reads) := by
  rw [advance_of_some hn]
  refine ⟨rfl, rfl, ?_, rfl, rfl, ?_⟩
  · exact lined_suffix h ((Lexeme.suffix_of_next? hn).trans (List.dropWhile_suffix _))
  · have hd := dropWhile_isBlank_of_some hn
    have hc := lineCount_lined (lined_suffix h (List.dropWhile_suffix isBlank))
    rw [if_neg hd] at hc
    simpa [List.dropWhile_append, hd] using hc

/-- The answer behind which `text` stood on `lines` lines: its first lexeme, or the end. -/
def Answers (text : List Char) (lines : Nat) (a : Except Failure Token × Scanner) :
    Option (Lexeme × List Char) → Prop
  | none => a = (.ok .endOfInput, { line := lines, reads := [], ended := true })
  | some (l, rest) => Answered text lines l rest a

/-- An answer to a scanner over lines is the first lexeme of the text that is left. -/
theorem advance_lined {text : List Char} {reads : List Read} (h : Lined text reads) (ended : Bool) (line : Nat) :
    Answers (text ++ joined reads) (line + reads.length) (advance ended text line reads)
      (Lexeme.next? (text ++ joined reads)) := by
  induction reads generalizing text line with
  | nil =>
    rcases hn : Lexeme.next? text with _ | ⟨l, rest⟩
    · rw [joined, List.flatMap_nil, List.append_nil, hn]
      exact advance_of_none hn ended line
    · rw [next?_of_lined h hn]
      exact answered_of_some h hn ended line
  | cons read reads ih =>
    rcases read with next | message
    · rcases hn : Lexeme.next? text with _ | ⟨l, rest⟩
      · have ih := ih h.2.2 (line + 1)
        have hlines : line + 1 + reads.length = line + (Read.line next :: reads).length := by
          rw [List.length_cons]
          omega
        have hj : joined (.line next :: reads) = next ++ joined reads := rfl
        rw [advance_of_blank hn, next?_of_blank hn, hj, ← hlines]
        rcases hl : Lexeme.next? (next ++ joined reads) with _ | ⟨l, rest⟩
        · rw [hl] at ih
          exact ih
        · rw [hl] at ih
          refine ⟨ih.answer, ih.held, ih.lined, ih.left, ih.lines, ?_⟩
          rw [List.dropWhile_append, dropWhile_isBlank_of_none hn]
          exact ih.behind
      · rw [next?_of_lined h hn]
        exact answered_of_some h hn ended line
    · exact absurd h id

/-! ## The lexemes of a source, one after another -/

end Scanner

/-- The characters that begin before byte `offset`. -/
def upTo : Nat → List Char → List Char
  | _, [] => []
  | offset, c :: cs => if offset = 0 then [] else c :: upTo (offset - c.utf8Size) cs

/-- The line that byte `offset` of a text stands on, the first one being 1. -/
def lineAt (text : List Char) (offset : Nat) : Nat := (upTo offset text).count '\n' + 1

theorem upTo_byteLength (a b : List Char) : upTo (Lexeme.byteLength a) (a ++ b) = a := by
  induction a with
  | nil => cases b <;> rfl
  | cons c a ih =>
    have hc := Char.utf8Size_pos c
    simp only [List.cons_append, Lexeme.byteLength, upTo]
    rw [if_neg (by omega), Nat.add_sub_cancel_left, ih]

theorem lineAt_byteLength (a b : List Char) : lineAt (a ++ b) (Lexeme.byteLength a) = a.count '\n' + 1 := by
  rw [lineAt, upTo_byteLength]

namespace Scanner

/-- A scanner of `text` that has given `count` answers. -/
structure At (text : List Char) (count : Nat) (s : Scanner) : Prop where
  held : s.held = none
  lined : Lined s.text s.reads
  lines : s.line + s.reads.length = lineCount text
  spans : ∃ before, text = before ++ (s.text ++ joined s.reads) ∧
    Lexeme.spansFrom (Lexeme.byteLength before) (s.text ++ joined s.reads) = (Lexeme.spans text).drop count

theorem at_ofPieces (chunks : List (List UInt8)) :
    At (Utf8.decode chunks.flatten) 0 (ofPieces (chunks.map .bytes)) := by
  have hj := Source.joined_reads chunks
  have hl := Source.lined_reads chunks
  refine ⟨rfl, hl, ?_, [], ?_, ?_⟩
  · have := lineCount_lined hl
    rw [List.nil_append, hj] at this
    show 0 + _ = _
    rw [this]
    simp [ofPieces]
  · exact hj.symm
  · show Lexeme.spansFrom 0 (joined _) = _
    simp only [ofPieces, hj, List.drop_zero]
    rfl

/-- At the end of the text the answer is the end of the input, now and ever after. -/
theorem at_next_of_none {text : List Char} {count : Nat} {s : Scanner} (h : At text count s)
    (hn : Lexeme.next? (s.text ++ joined s.reads) = none) :
    At text (count + 1) s.next.2 ∧ (Lexeme.spans text)[count]? = none ∧ s.next.1 = .ok .endOfInput ∧
      s.next.2.line = lineCount text := by
  obtain ⟨before, ht, hs⟩ := h.spans
  have ha := advance_lined h.lined s.ended s.line
  rw [Lexeme.spansFrom_of_none hn] at hs
  rw [hn] at ha
  have hnext : s.next = (.ok .endOfInput, { line := s.line + s.reads.length, reads := [], ended := true }) := by
    rw [next, h.held]
    exact ha
  rw [hnext]
  refine ⟨⟨rfl, .inl (by simp), h.lines, text, by simp [joined], ?_⟩, ?_, rfl, h.lines⟩
  · rw [← List.tail_drop, ← hs]
    exact Lexeme.spansFrom_of_none rfl _
  · rw [← List.head?_drop, ← hs]
    rfl

/-- Before it the answer is the next lexeme, and the line is that of the lexeme. -/
theorem at_next_of_some {text rest : List Char} {l : Lexeme} {count : Nat} {s : Scanner} (h : At text count s)
    (hn : Lexeme.next? (s.text ++ joined s.reads) = some (l, rest)) :
    ∃ span, At text (count + 1) s.next.2 ∧ (Lexeme.spans text)[count]? = some span ∧
      s.next.1 = span.lexeme.answer (lineAt text span.start) ∧ s.next.2.line = lineAt text span.start := by
  obtain ⟨before, ht, hs⟩ := h.spans
  have ha := advance_lined h.lined s.ended s.line
  obtain ⟨span, hl, hstart, hi, hf⟩ := Lexeme.spansFrom_of_some hn (Lexeme.byteLength before)
  generalize hb : (s.text ++ joined s.reads).takeWhile isBlank = blanks at hstart hi
  have hd : (s.text ++ joined s.reads).dropWhile isBlank = span.text ++ rest := by
    have := List.takeWhile_append_dropWhile (p := isBlank) (l := s.text ++ joined s.reads)
    rw [hb] at this
    exact List.append_cancel_left (this.trans hi)
  rw [hn] at ha
  have hnext : s.next = advance s.ended s.text s.line s.reads := by rw [next, h.held]
  rw [← hnext] at ha
  rw [hf] at hs
  rw [← Lexeme.byteLength_append] at hstart
  -- the line count of the whole text is told from the lines before the lexeme and those behind
  have htext : text = (before ++ blanks) ++ (span.text ++ rest) := by rw [ht, hi, List.append_assoc]
  have hline : s.next.2.line = lineAt text span.start := by
    have hne : span.text ++ rest ≠ [] := hd ▸ dropWhile_isBlank_of_some hn
    have hc := lineCount_append (before ++ blanks) hne
    have hbehind := ha.behind
    have hlines := ha.lines
    rw [hd] at hbehind
    rw [← htext, hbehind, ← h.lines] at hc
    rw [hstart, htext, lineAt_byteLength]
    omega
  refine ⟨span, ⟨ha.held, ha.lined, ha.lines.trans h.lines, before ++ blanks ++ span.text, ?_, ?_⟩, ?_, ?_, hline⟩
  · rw [ha.left, htext]
    simp only [List.append_assoc]
  · rw [ha.left, ← List.tail_drop, ← hs, Lexeme.byteLength_append, ← hstart]
    rfl
  · rw [← List.head?_drop, ← hs]
    rfl
  · rw [← hline, hl]
    exact ha.answer

theorem at_next {text : List Char} {count : Nat} {s : Scanner} (h : At text count s) :
    At text (count + 1) s.next.2 := by
  rcases hn : Lexeme.next? (s.text ++ joined s.reads) with _ | ⟨l, rest⟩
  · exact (at_next_of_none h hn).1
  · obtain ⟨span, hs, -⟩ := at_next_of_some h hn
    exact hs

theorem at_after (chunks : List (List UInt8)) (count : Nat) :
    At (Utf8.decode chunks.flatten) count ((ofPieces (chunks.map .bytes)).after count) := by
  induction count with
  | zero => exact at_ofPieces chunks
  | succ count ih =>
    rw [after_succ]
    exact at_next ih

/-- Reading a source line by line, a token at a time, gives the lexemes of the whole decoded
    text, however its bytes come in pieces; behind the last one the input has ended. After a
    lexeme the line is the one it stands on, and after the end the number of lines. -/
theorem next_after (chunks : List (List UInt8)) (count : Nat) :
    let text := Utf8.decode chunks.flatten
    let s := (ofPieces (chunks.map .bytes)).after count
    match (Lexeme.spans text)[count]? with
    | some span => s.next.1 = span.lexeme.answer (lineAt text span.start) ∧ s.next.2.line = lineAt text span.start
    | none => s.next.1 = .ok .endOfInput ∧ s.next.2.line = lineCount text := by
  intro text s
  have h : At text count s := at_after chunks count
  rcases hn : Lexeme.next? (s.text ++ joined s.reads) with _ | ⟨l, rest⟩
  · obtain ⟨-, hs, ha⟩ := at_next_of_none h hn
    rw [hs]
    exact ha
  · obtain ⟨span, -, hs, ha⟩ := at_next_of_some h hn
    rw [hs]
    exact ha

end Scanner

end Reckoner
