/-
  Reckoner.Proofs.Delimiters — skipping by characters comes out where skipping by tokens does.

  A scanner goes behind a delimiter without making tokens of what it passes. It could as well ask
  for one token after another until the delimiter is met: no other token holds its character, so
  that both take the same text, and the lines are read as they are needed either way. With plus
  and minus they part, for those stand in exponents too (`1e+5`).

  - `seek_advance`: what one answer leaves for the character to be sought in.
  - `seek_eq_askFor`: seeking the character is asking for its token.
  - `skipPast_agrees`: the same of a scanner that may hold a token, and what is left to read for
    any character.
-/

import Reckoner.Proofs.Places

namespace Reckoner

namespace Scanner

open Lexeme

/-! ## Skipping by tokens -/

/-- The text that is left to read, apart from a token that was put back. -/
def unreadText (s : Scanner) : List Char := s.text ++ joined s.reads

/-- Asks for tokens until one is spelled `c` or the input has ended. Other tokens are dropped, and
    so are stray characters. -/
def askFor (c : Char) (s : Scanner) : Except Failure Token × Scanner :=
  match _h : s.next with
  | (.ok t, after) => if _ht : t = .endOfInput ∨ SpelledAs c t then (.ok t, after) else askFor c after
  | (.error f, after) => if _hf : f.isRecoverable then askFor c after else (.error f, after)
  termination_by s.unread
  decreasing_by
    · have := unread_next_lt (s := s) (by rw [_h]; exact fun he => _ht (.inl he))
      rwa [_h] at this
    · have := unread_next_lt (s := s) (by rw [_h]; exact _hf)
      rwa [_h] at this

theorem askFor_of_ok {s after : Scanner} {t : Token} (h : s.next = (.ok t, after)) (c : Char) :
    s.askFor c = if t = .endOfInput ∨ SpelledAs c t then (.ok t, after) else after.askFor c := by
  rw [askFor]
  split
  · rename_i u after' hn
    obtain ⟨hu, rfl⟩ := Prod.mk.inj (h.symm.trans hn)
    obtain rfl := Except.ok.inj hu
    rfl
  · rename_i f after' hn
    cases h.symm.trans hn

/-! ## One answer -/

section

variable {d : Symbol} {text rest : List Char} {l : Lexeme}

/-- Where a character is sought depends only on what stands before it. -/
theorem seek_congr {c : Char} {text text' : List Char} (h : text.dropWhile (· != c) = text'.dropWhile (· != c))
    (ended : Bool) (line : Nat) (reads : List Read) :
    seek c ended text line reads = seek c ended text' line reads := by
  rw [seek.eq_def, seek.eq_def c ended text', h]

/-- Behind the lexeme of the delimiter the search has come to its end; any other lexeme is passed over. -/
theorem seek_of_lexeme (hd : d.IsDelimiter) (h : next? text = some (l, rest)) (ended : Bool) (line : Nat)
    (reads : List Read) :
    seek d.char ended text line reads =
      if l = .token (.symbol d) then (.ok (), { text := rest, line, reads, ended })
      else seek d.char ended rest line reads := by
  obtain ⟨word, ht, hp⟩ := parts_of_next? hd h
  have hdrop : text.dropWhile (· != d.char) = (word ++ rest).dropWhile (· != d.char) := by
    rw [ht, dropWhile_of_not_mem (not_mem_blanks d.isBlank_char text)]
  rcases hp with ⟨rfl, rfl⟩ | ⟨hl, hm⟩
  · rw [List.singleton_append, List.dropWhile_cons_of_neg (by simp)] at hdrop
    rw [if_pos rfl]
    exact seek_of_delimiter hdrop ended line reads
  · rw [if_neg hl]
    refine seek_congr (hdrop.trans ?_) ended line reads
    rw [dropWhile_of_not_mem hm]

theorem seek_of_blank (hd : d.IsDelimiter) (h : next? text = none) (ended : Bool) (line : Nat) (reads : List Read) :
    seek d.char ended text line reads = seek d.char ended [] line reads := by
  have hc := cut_all hd text
  refine seek_congr ?_ ended line reads
  rcases hr : text.dropWhile (· != d.char) with _ | ⟨c, rest⟩
  · rfl
  · rw [hr, all_of_none h] at hc
    obtain ⟨before, -, he⟩ := hc
    simp at he

end

/-- After an answer that is the delimiter or the end of the input the search is over; after any other
    it goes on from there. -/
theorem seek_advance {d : Symbol} (hd : d.IsDelimiter) {reads : List Read} (h : AllLines reads) (ended : Bool)
    (text : List Char) (line : Nat) :
    match advance ended text line reads with
    | (.ok t, after) =>
      seek d.char ended text line reads =
        if t = .endOfInput ∨ SpelledAs d.char t then (.ok (), after)
        else seek d.char after.ended after.text after.line after.reads
    | (.error f, after) =>
      f.isRecoverable = true ∧
        seek d.char ended text line reads = seek d.char after.ended after.text after.line after.reads := by
  fun_induction advance ended text line reads with
  | case1 text line t rest reads hn =>
    have ht : (t = .endOfInput ∨ SpelledAs d.char t) ↔ Lexeme.token t = .token (.symbol d) := by
      rw [spelledAs_char, token.injEq]
      exact or_iff_right fun he => ne_endOfInput_of_next? hn (congrArg token he)
    simp only [seek_of_lexeme hd hn, ht]
  | case2 text line c rest reads hn =>
    refine ⟨rfl, ?_⟩
    rw [seek_of_lexeme hd hn, if_neg (by simp)]
  | case3 text line hn =>
    refine (seek_of_blank hd hn ended line []).trans ?_
    rw [if_pos (.inl rfl)]
    rfl
  | case4 text line message reads hn =>
    obtain ⟨_, hm⟩ := h _ List.mem_cons_self
    cases hm
  | case5 text line next reads hn ih =>
    have hseek : seek d.char ended text line (.line next :: reads) = seek d.char ended next (line + 1) reads := by
      rw [seek_of_blank hd hn]
      rfl
    rw [hseek]
    exact ih fun read hm => h read (List.mem_cons_of_mem _ hm)

theorem seek_next {d : Symbol} (hd : d.IsDelimiter) {s : Scanner} (h : s.Unbroken) (hs : s.held = none) :
    match s.next with
    | (.ok t, after) =>
      seek d.char s.ended s.text s.line s.reads =
        if t = .endOfInput ∨ SpelledAs d.char t then (.ok (), after)
        else seek d.char after.ended after.text after.line after.reads
    | (.error f, after) =>
      f.isRecoverable = true ∧
        seek d.char s.ended s.text s.line s.reads = seek d.char after.ended after.text after.line after.reads := by
  rw [next, hs]
  exact seek_advance hd h s.ended s.text s.line

/-! ## A whole search -/

/-- Seeking the character of a delimiter is asking for its token. -/
theorem seek_eq_askFor {d : Symbol} (hd : d.IsDelimiter) {s : Scanner} (h : s.Unbroken) (hs : s.held = none) :
    seek d.char s.ended s.text s.line s.reads = (.ok (), (s.askFor d.char).2) ∧
      ∃ t, (s.askFor d.char).1 = .ok t ∧ (t = .endOfInput ∨ SpelledAs d.char t) := by
  have hafter := unbroken_next h
  have hheld := held_next s
  have hseek := seek_next hd h hs
  fun_induction askFor d.char s with
  | case1 s t after hn ht =>
    rw [hn] at hseek
    exact ⟨hseek.trans (if_pos ht), t, rfl, ht⟩
  | case2 s t after hn ht ih =>
    rw [hn] at hafter hheld hseek
    obtain ⟨hmet, hlast⟩ := ih hafter hheld (unbroken_next hafter) (held_next after) (seek_next hd hafter hheld)
    exact ⟨(hseek.trans (if_neg ht)).trans hmet, hlast⟩
  | case3 s f after hn hf ih =>
    rw [hn] at hafter hheld hseek
    obtain ⟨hmet, hlast⟩ := ih hafter hheld (unbroken_next hafter) (held_next after) (seek_next hd hafter hheld)
    exact ⟨hseek.2.trans hmet, hlast⟩
  | case4 s f after hn hf =>
    rw [hn] at hseek
    exact absurd hseek.1 hf

theorem held_askFor (c : Char) (s : Scanner) : (s.askFor c).2.held = none := by
  have hheld := held_next s
  fun_induction askFor c s with
  | case1 s t after hn ht => rwa [hn] at hheld
  | case2 s t after hn ht ih => exact ih (held_next after)
  | case3 s f after hn hf ih => exact ih (held_next after)
  | case4 s f after hn hf => rwa [hn] at hheld

/-! ## A token that was put back -/

/-- A token that was put back and is not spelled `c` is dropped. -/
theorem skipPast_eq_seek {c : Char} {s : Scanner} (h : ∀ t, s.held = some t → ¬ SpelledAs c t) :
    s.skipPast c = seek c s.ended s.text s.line s.reads := by
  rcases hs : s.held with _ | t
  · exact skipPast_of_held_none hs c
  · exact skipPast_of_other hs (h t hs)

/-- Behind a skip and behind the last token asked for a scanner has the same to read, and it holds
    nothing. -/
theorem skipPast_eq_askFor {d : Symbol} (hd : d.IsDelimiter) {s : Scanner} (h : s.Unbroken)
    (hend : s.held = some .endOfInput → s.text = [] ∧ s.reads = []) :
    (s.skipPast d.char).1 = .ok () ∧ (∃ t, (s.askFor d.char).1 = .ok t ∧ (t = .endOfInput ∨ SpelledAs d.char t)) ∧
      { (s.skipPast d.char).2 with ended := true } = { (s.askFor d.char).2 with ended := true } := by
  rcases hs : s.held with _ | t
  · obtain ⟨hseek, hlast⟩ := seek_eq_askFor hd h hs
    rw [skipPast_of_held_none hs, hseek]
    exact ⟨rfl, hlast, rfl⟩
  have hn : s.next = (.ok t, { s with held := none }) := by rw [next, hs]
  by_cases htd : SpelledAs d.char t
  · rw [skipPast_of_met hs htd, askFor_of_ok hn, if_pos (.inr htd)]
    exact ⟨rfl, ⟨t, rfl, .inr htd⟩, rfl⟩
  rw [skipPast_of_other hs htd]
  by_cases ht : t = .endOfInput
  · subst ht
    obtain ⟨htext, hreads⟩ := hend hs
    have hseek :
        seek d.char s.ended s.text s.line s.reads = (.ok (), { line := s.line, reads := [], ended := true }) := by
      rw [htext, hreads]
      rfl
    rw [hseek, askFor_of_ok hn, if_pos (.inl rfl), htext, hreads]
    exact ⟨rfl, ⟨_, rfl, .inl rfl⟩, rfl⟩
  · obtain ⟨hseek, hlast⟩ := seek_eq_askFor (s := { s with held := none }) hd h rfl
    rw [askFor_of_ok hn, if_neg (not_or.mpr ⟨ht, htd⟩), hseek]
    exact ⟨rfl, hlast, rfl⟩

/-- What stands behind the first `c` of a text. -/
theorem tail_dropWhile_append {c : Char} {a : List Char} (h : c ∉ a) (b : List Char) :
    ((a ++ c :: b).dropWhile (· != c)).tail = b := by
  rw [dropWhile_of_not_mem h, List.dropWhile_cons_of_neg (by simp), List.tail_cons]

theorem dropWhile_eq_nil_of_not_mem {c : Char} {a : List Char} (h : c ∉ a) : a.dropWhile (· != c) = [] := by
  rw [← List.append_nil a, dropWhile_of_not_mem h, List.dropWhile_nil]

theorem exists_delimiter {c : Char} (h : c ∈ ['=', '(', ')', ',', '*', '/', '%']) :
    ∃ d : Symbol, d.IsDelimiter ∧ d.char = c := by
  simp only [List.mem_cons, List.not_mem_nil, or_false] at h
  rcases h with rfl | rfl | rfl | rfl | rfl | rfl | rfl
  · exact ⟨.equals, ⟨by decide, by decide⟩, rfl⟩
  · exact ⟨.opening, ⟨by decide, by decide⟩, rfl⟩
  · exact ⟨.closing, ⟨by decide, by decide⟩, rfl⟩
  · exact ⟨.comma, ⟨by decide, by decide⟩, rfl⟩
  · exact ⟨.star, ⟨by decide, by decide⟩, rfl⟩
  · exact ⟨.slash, ⟨by decide, by decide⟩, rfl⟩
  · exact ⟨.percent, ⟨by decide, by decide⟩, rfl⟩

/-- Over a source none of whose reads fail, skipping past a delimiter leaves the same text, line and
    reads as asking for tokens until it is met or the input has ended, and nothing put back. Past any
    character it leaves the text behind its first occurrence, on whatever line that is, or nothing;
    unless the character was put back as a token. -/
theorem skipPast_agrees (s : Scanner) (h : s.Unbroken) :
    (∀ c ∈ ['=', '(', ')', ',', '*', '/', '%'], (s.held = some .endOfInput → s.text = [] ∧ s.reads = []) →
      let quick := s.skipPast c
      let slow := s.askFor c
      quick.1 = .ok () ∧ (∃ t, slow.1 = .ok t ∧ (t = .endOfInput ∨ SpelledAs c t)) ∧
        quick.2.held = none ∧ slow.2.held = none ∧
        quick.2.text = slow.2.text ∧ quick.2.reads = slow.2.reads ∧ quick.2.line = slow.2.line) ∧
    (∀ c, (∀ t, s.held = some t → ¬ SpelledAs c t) →
      (s.skipPast c).1 = .ok () ∧ (s.skipPast c).2.held = none ∧
        (∀ before behind, s.unreadText = before ++ c :: behind → c ∉ before →
          (s.skipPast c).2.unreadText = behind) ∧
        (c ∉ s.unreadText → (s.skipPast c).2.unreadText = [])) := by
  constructor
  · intro c hc hend quick slow
    obtain ⟨d, hd, rfl⟩ := exists_delimiter hc
    obtain ⟨hok, hlast, hstate⟩ := skipPast_eq_askFor hd h hend
    have hheld := congrArg held hstate
    have htext := congrArg Scanner.text hstate
    have hreads := congrArg reads hstate
    have hline := congrArg line hstate
    exact ⟨hok, hlast, hheld.trans (held_askFor _ _), held_askFor _ _, htext, hreads, hline⟩
  · intro c hc
    obtain ⟨hok, hheld, hleft⟩ := seek_joined h c s.ended s.text s.line
    rw [skipPast_eq_seek hc]
    refine ⟨hok, hheld, ?_, ?_⟩
    · intro before behind hs hb
      rw [unreadText, hleft, ← unreadText, hs, tail_dropWhile_append hb]
    · intro hs
      rw [unreadText, hleft, ← unreadText, dropWhile_eq_nil_of_not_mem hs, List.tail_nil]

/-- Over an open exponent and a blank line to an equals sign, with a plus sign put back. -/
theorem skipPast_agrees_across_lines :
    let s : Scanner :=
      { held := some (.symbol .plus), text := "$ 3e+ (".toList, line := 1,
        reads := [.line "\n".toList, .line "exitx, .5*(2 = 7\n".toList, .line "8 =".toList] }
    s.Unbroken ∧ s.held ≠ some .endOfInput ∧ ¬ SpelledAs 'x' (.symbol .plus) ∧
      (s.skipPast '=').2 = { text := " 7\n".toList, line := 3, reads := [.line "8 =".toList] } ∧
      (s.askFor '=').2.text = " 7\n".toList ∧ (s.askFor '=').2.line = 3 ∧
      (s.skipPast 'x').2.unreadText = "itx, .5*(2 = 7\n8 =".toList ∧ (s.skipPast 'λ').2.unreadText = [] := by
  intro s
  have hu : s.Unbroken := by simp [s, Unbroken, AllLines]
  have hheld : s.held ≠ some .endOfInput := by decide
  have hskip : (s.skipPast '=').2 = { text := " 7\n".toList, line := 3, reads := [.line "8 =".toList] } := by decide
  obtain ⟨hdelimiter, hany⟩ := skipPast_agrees s hu
  obtain ⟨-, -, -, -, htext, -, hline⟩ := hdelimiter '=' (by decide) (fun h => absurd h hheld)
  have hx : ∀ t, s.held = some t → ¬ SpelledAs 'x' t := by
    rintro t ⟨⟩
    decide
  have hl : ∀ t, s.held = some t → ¬ SpelledAs 'λ' t := by
    rintro t ⟨⟩
    decide
  refine ⟨hu, hheld, hx _ rfl, hskip, ?_, ?_, ?_, ?_⟩
  · rw [← htext, hskip]
  · rw [← hline, hskip]
  · exact (hany 'x' hx).2.2.1 "$ 3e+ (\ne".toList _ (by decide) (by decide)
  · exact (hany 'λ' hl).2.2.2 (by decide)

end Scanner

end Reckoner
