/-
  Reckoner.Proofs.Places — the places of a scanner in its source.

  A place is the number of a lexeme in the whole text; behind the last one stands the end of the
  input. A scanner is due to answer from a place, whether the lexeme there is unread or was put
  back, and after the answer its line is that of the place.

  - `due_next`: what a scanner answers, and where it is then.
  - `at_skipPast`: skipping comes out before a lexeme.
  - `line_next_le`, `line_skipPast_le`: the line never goes back.
-/

import Reckoner.Desk
import Reckoner.Proofs.Skipping

namespace Reckoner

/-! ## Lexemes and their lines -/

namespace Lexeme

/-- The line of the lexeme at place `n`; behind the last lexeme, the number of lines. -/
def lineOf (text : List Char) (n : Nat) : Nat :=
  match (spans text)[n]? with
  | some span => lineAt text span.start
  | none => lineCount text

/-- What a scanner answers at place `n`. -/
def answerAt (text : List Char) (n : Nat) : Except Failure Token :=
  match (all text)[n]? with
  | some l => l.answer (lineOf text n)
  | none => .ok .endOfInput

/-- A token other than the end of the input is a lexeme of the text. -/
theorem getElem?_of_answerAt {text : List Char} {n : Nat} {t : Token} (h : answerAt text n = .ok t)
    (ht : t ≠ .endOfInput) : (all text)[n]? = some (.token t) := by
  unfold answerAt at h
  split at h
  · rename_i l hl
    cases l with
    | token u =>
      obtain rfl := Except.ok.inj h
      exact hl
    | stray c => cases h
  · exact absurd (Except.ok.inj h).symm ht

theorem stray_of_answerAt {text : List Char} {n : Nat} {f : Failure} (h : answerAt text n = .error f) :
    ∃ c, (all text)[n]? = some (.stray c) ∧ f = .mistake (lineOf text n) (.strayCharacter c) := by
  unfold answerAt at h
  split at h
  · rename_i l hl
    cases l with
    | token u => cases h
    | stray c => exact ⟨c, hl, (Except.error.inj h).symm⟩
  · cases h

/-- Behind a delimiter the lexemes go on where its own ends. -/
theorem drop_spansFrom {d : Symbol} (hd : d.IsDelimiter) {cs rest : List Char} {c : Char}
    (h : cs.dropWhile (· != d.char) = c :: rest) (offset : Nat) :
    ∃ before j, cs = before ++ rest ∧ (spansFrom offset cs).drop j = spansFrom (offset + byteLength before) rest := by
  induction cs using textInduction generalizing offset with
  | blank cs hn =>
    have hc := cut_all hd cs
    rw [h, all_of_none hn] at hc
    obtain ⟨before, -, he⟩ := hc
    simp at he
  | lexeme cs l rest' hn ih =>
    obtain ⟨text, ht, hp⟩ := parts_of_next? hd hn
    obtain ⟨span, -, hstart, hs, hspans⟩ := spansFrom_of_some hn offset
    obtain rfl : text = span.text := List.append_cancel_right (List.append_cancel_left (ht.symm.trans hs))
    rw [ht, dropWhile_of_not_mem (not_mem_blanks d.isBlank_char cs)] at h
    have hoffset : span.start + byteLength span.text = offset + byteLength (cs.takeWhile isBlank ++ span.text) := by
      rw [hstart, byteLength_append, Nat.add_assoc]
    rcases hp with ⟨-, hone⟩ | ⟨-, hm⟩
    · rw [hone, List.singleton_append, List.dropWhile_cons_of_neg (by simp)] at h
      obtain ⟨-, rfl⟩ := List.cons.inj h
      refine ⟨cs.takeWhile isBlank ++ span.text, 1, ?_, ?_⟩
      · rw [List.append_assoc]
        exact ht
      · rw [hspans, hoffset]
        rfl
    · rw [dropWhile_of_not_mem hm] at h
      obtain ⟨before, j, hb, hj⟩ := ih h (span.start + byteLength span.text)
      refine ⟨cs.takeWhile isBlank ++ span.text ++ before, j + 1, ?_, ?_⟩
      · rw [List.append_assoc, List.append_assoc, ← hb]
        exact ht
      · rw [hspans, List.drop_succ_cons, hj, hoffset, byteLength_append (_ ++ _), Nat.add_assoc]

end Lexeme

namespace Scanner

open Lexeme

/-! ## Answers -/

/-- The lexeme at place `n` was the last one read. -/
structure Seen (text : List Char) (n : Nat) (s : Scanner) : Prop where
  rest : At text (n + 1) { s with held := none }
  line : s.line = lineOf text n

/-- The next answer is that of place `n`: the lexeme there is unread, or was put back. -/
inductive Due (text : List Char) (n : Nat) : Scanner → Prop
  | unread {s : Scanner} (h : At text n s) : Due text n s
  | held {s : Scanner} {t : Token} (h : Seen text n s) (ht : answerAt text n = .ok t) :
    Due text n { s with held := some t }

variable {text : List Char} {n : Nat} {s : Scanner}

theorem At.forget (h : At text n s) : At text n { s with held := none } := ⟨rfl, h.lined, h.lines, h.spans⟩

theorem eq_of_held_none (h : s.held = none) : ({ s with held := none } : Scanner) = s := by
  cases s
  obtain rfl := h
  rfl

/-- The answer at place `n`. -/
theorem at_answer (h : At text n s) :
    s.next.1 = answerAt text n ∧ At text (n + 1) s.next.2 ∧ s.next.2.line = lineOf text n := by
  rcases hn : Lexeme.next? (s.text ++ joined s.reads) with _ | ⟨l, rest⟩
  · obtain ⟨hat, hspan, ha, hline⟩ := at_next_of_none h hn
    rw [answerAt, lineOf, all, List.getElem?_map, hspan]
    exact ⟨ha, hat, hline⟩
  · obtain ⟨span, hat, hspan, ha, hline⟩ := at_next_of_some h hn
    rw [answerAt, lineOf, all, List.getElem?_map, hspan]
    exact ⟨ha, hat, hline⟩

/-- The next answer, and where the scanner is behind it. -/
theorem due_next (h : Due text n s) :
    s.next.1 = answerAt text n ∧ At text (n + 1) s.next.2 ∧ Seen text n s.next.2 := by
  cases h with
  | unread h =>
    obtain ⟨ha, hat, hline⟩ := at_answer h
    exact ⟨ha, hat, hat.forget, hline⟩
  | held h ht => exact ⟨ht.symm, h.rest, h.rest, h.line⟩

/-- A token that was read is put back. -/
theorem Seen.hold (h : Seen text n s) {t : Token} (ht : answerAt text n = .ok t) :
    Due text n { s with held := some t } := .held h ht

/-- Where a scanner is that holds nothing. -/
theorem Seen.due (h : Seen text n s) (hs : s.held = none) : Due text (n + 1) s := by
  have hat := h.rest
  rw [eq_of_held_none hs] at hat
  exact .unread hat

/-- The first answer that is no equals sign. -/
theorem due_firstToken (h : Due text n s) :
    ∃ k, (Desk.firstToken s).1 = answerAt text k ∧ Seen text k (Desk.firstToken s).2 := by
  fun_induction Desk.firstToken s generalizing n with
  | case1 s f after hn =>
    obtain ⟨ha, -, hseen⟩ := due_next h
    rw [hn] at ha hseen
    exact ⟨n, ha, hseen⟩
  | case2 s after hn ih =>
    obtain ⟨-, hat, -⟩ := due_next h
    rw [hn] at hat
    exact ih (.unread hat)
  | case3 s t after hn ht =>
    obtain ⟨ha, -, hseen⟩ := due_next h
    rw [hn] at ha hseen
    exact ⟨n, ha, hseen⟩

/-! ## Skipping -/

/-- Lines are left where a character is sought, and as many of them as have not been read. -/
theorem lined_seek {txt : List Char} {reads : List Read} (h : Lined txt reads) (c : Char) (ended : Bool) (line : Nat) :
    Lined (seek c ended txt line reads).2.text (seek c ended txt line reads).2.reads ∧
      (seek c ended txt line reads).2.line + (seek c ended txt line reads).2.reads.length = line + reads.length := by
  fun_induction seek c ended txt line reads with
  | case1 text line d rest reads hd =>
    have hs : rest <:+ text := (List.suffix_cons d rest).trans (hd ▸ List.dropWhile_suffix _)
    exact ⟨lined_suffix h hs, rfl⟩
  | case2 text line hd => exact ⟨.inl (by simp), rfl⟩
  | case3 text line message reads hd => exact absurd h id
  | case4 text line next reads hd ih =>
    obtain ⟨hlined, hlines⟩ := ih h.2.2
    exact ⟨hlined, hlines.trans (by rw [List.length_cons]; omega)⟩

theorem at_seek {d : Symbol} (hd : d.IsDelimiter) (h : At text n s) :
    ∃ k, At text k (seek d.char s.ended s.text s.line s.reads).2 := by
  obtain ⟨-, hheld, hrest⟩ := seek_joined (allLines_of_lined h.lined) d.char s.ended s.text s.line
  obtain ⟨hlined, hlines⟩ := lined_seek h.lined d.char s.ended s.line
  obtain ⟨before, ht, hs⟩ := h.spans
  rcases hr : (s.text ++ joined s.reads).dropWhile (· != d.char) with _ | ⟨c, rest⟩
  · rw [hr, List.tail_nil] at hrest
    refine ⟨(spans text).length, hheld, hlined, hlines.trans h.lines, text, ?_, ?_⟩
    · rw [hrest, List.append_nil]
    · rw [hrest, List.drop_length]
      exact spansFrom_of_none rfl _
  · rw [hr, List.tail_cons] at hrest
    obtain ⟨middle, j, hm, hj⟩ := drop_spansFrom hd hr (byteLength before)
    refine ⟨n + j, hheld, hlined, hlines.trans h.lines, before ++ middle, ?_, ?_⟩
    · rw [hrest, List.append_assoc, ← hm]
      exact ht
    · rw [hrest, byteLength_append, ← hj, hs, List.drop_drop]

/-- Skipping comes out before a lexeme; a token that was put back is gone. -/
theorem at_skipPast {d : Symbol} (hd : d.IsDelimiter) (h : Due text n s) : ∃ k, At text k (s.skipPast d.char).2 := by
  obtain ⟨k, hk⟩ : ∃ k, At text k { s with held := none } := by
    cases h with
    | unread h => exact ⟨n, h.forget⟩
    | held h ht => exact ⟨n + 1, h.rest⟩
  have hseek : ∃ k, At text k (seek d.char s.ended s.text s.line s.reads).2 :=
    at_seek (s := { s with held := none }) hd hk
  unfold skipPast
  split
  · split
    · exact ⟨k, hk⟩
    · exact hseek
  · exact hseek

/-! ## The line never goes back -/

theorem line_advance_le (ended : Bool) (text : List Char) (line : Nat) (reads : List Read) :
    line ≤ (advance ended text line reads).2.line := by
  fun_induction advance ended text line reads with
  | case5 text line next reads h ih => exact Nat.le_of_succ_le ih
  | _ => exact Nat.le_refl _

theorem line_next_le (s : Scanner) : s.line ≤ s.next.2.line := by
  unfold next
  split
  · exact Nat.le_refl _
  · exact line_advance_le _ _ _ _

theorem line_after_le (s : Scanner) (count : Nat) : s.line ≤ (s.after count).line := by
  induction count generalizing s with
  | zero => exact Nat.le_refl _
  | succ count ih => exact Nat.le_trans (line_next_le s) (ih s.next.2)

theorem line_seek_le (c : Char) (ended : Bool) (text : List Char) (line : Nat) (reads : List Read) :
    line ≤ (seek c ended text line reads).2.line := by
  fun_induction seek c ended text line reads with
  | case4 text line next reads h ih => exact Nat.le_of_succ_le ih
  | _ => exact Nat.le_refl _

theorem line_skipPast_le (s : Scanner) (c : Char) : s.line ≤ (s.skipPast c).2.line := by
  unfold skipPast
  split
  · split
    · exact Nat.le_refl _
    · exact line_seek_le _ _ _ _ _
  · exact line_seek_le _ _ _ _ _

theorem line_firstToken_le (s : Scanner) : s.line ≤ (Desk.firstToken s).2.line := by
  fun_induction Desk.firstToken s with
  | case1 s f after hn =>
    have h := line_next_le s
    rwa [hn] at h
  | case2 s after hn ih =>
    have h := line_next_le s
    rw [hn] at h
    exact Nat.le_trans h ih
  | case3 s t after hn ht =>
    have h := line_next_le s
    rwa [hn] at h

end Scanner

end Reckoner
