/-
  Reckoner.Proofs.Tiling — the lexemes of a text lie in it side by side, each the longest match.

  Where a lexeme begins it is the longest word that begins there, and if none does it is a single
  stray character. Between lexemes there is nothing but blanks, and no lexeme holds one.

  - `longest_head`: a lexeme is the longest word.
  - `tiles_spansFrom`: the lexemes and the blanks between them make up the text.
  - `spans_tile`: the same of the bytes that they cover, and of every character.
-/

import Reckoner.Proofs.Words

namespace Reckoner

namespace Lexeme

open Token

/-! ## The longest word -/

/-- The lexeme of a text that begins with `text`: the token of the longest word there, or a single
    character if there is none. -/
inductive Longest (text rest : List Char) : Lexeme → Prop
  | token {t : Token} (word : OfWord text t)
    (longest : ∀ other, other <+: text ++ rest → IsWord other → other.length ≤ text.length) :
    Longest text rest (.token t)
  | stray {c : Char} (alone : text = [c]) (none : ∀ other, other <+: text ++ rest → ¬ IsWord other) :
    Longest text rest (.stray c)

section

variable {text rest : List Char} {l : Lexeme}

theorem Longest.ne_nil (h : Longest text rest l) : text ≠ [] := by
  cases h with
  | token word => exact word.isWord.ne_nil
  | stray alone => exact alone ▸ List.cons_ne_nil _ _

/-- A word that is a whole lexeme is its token. -/
theorem Longest.eq_token (h : Longest text rest l) {t : Token} (word : OfWord text t) : l = .token t := by
  cases h with
  | token word' => rw [word'.unique word]
  | stray alone none => exact absurd word.isWord (none text (List.prefix_append text rest))

theorem Longest.stray_iff (h : Longest text rest l) :
    (∃ c, l = .stray c) ↔ ∀ word, word <+: text ++ rest → ¬ IsWord word := by
  cases h with
  | token word =>
    refine iff_of_false (by simp) fun hnone => ?_
    exact hnone text (List.prefix_append text rest) word.isWord
  | stray alone none => exact iff_of_true ⟨_, rfl⟩ none

theorem Longest.keyword_iff (h : Longest text rest l) (k : Keyword) :
    l = .token (.keyword k) ↔ text = k.spelling.toList ∨ k = .declare ∧ text = ['#'] := by
  constructor
  · rintro rfl
    cases h with
    | token word =>
      cases word with
      | fixed hfixed =>
        rcases mem_fixed.mp hfixed with ⟨k', ht, hk⟩ | ⟨s, -, hs⟩ | ⟨ht, hk⟩
        · exact .inl (by rw [ht, Token.keyword.inj hk])
        · cases hs
        · exact .inr ⟨Token.keyword.inj hk, ht⟩
  · intro ht
    have hfixed : (text, Token.keyword k) ∈ fixed := by
      rcases ht with ht | ⟨rfl, ht⟩
      · exact mem_fixed.mpr (.inl ⟨k, ht, rfl⟩)
      · exact mem_fixed.mpr (.inr (.inr ⟨ht, rfl⟩))
    exact h.eq_token (.fixed hfixed)

end

/-- A name goes as far as letters and digits do. -/
theorem length_identifier_le {c : Char} {cs word : List Char} (h : word <+: c :: cs)
    (hword : word ∈ Pattern.identifier.matches') : word.length ≤ (c :: cs.takeWhile Char.isAlphanum).length := by
  obtain ⟨d, rest, rfl, -, hrest⟩ := Pattern.mem_identifier.mp hword
  obtain ⟨behind, rfl⟩ := (List.cons_prefix_cons.mp h).2
  rw [List.takeWhile_append_of_pos hrest, List.length_cons, List.length_cons, List.length_append]
  omega

theorem isAlpha_of_identifier {c : Char} {cs word : List Char} (h : word <+: c :: cs)
    (hword : word ∈ Pattern.identifier.matches') : c.isAlpha = true := by
  obtain ⟨d, rest, rfl, ha, -⟩ := Pattern.mem_identifier.mp hword
  rwa [← (List.cons_prefix_cons.mp h).1]

theorem isAlpha_of_number {c : Char} {cs word : List Char} (h : word <+: c :: cs)
    (hword : word ∈ Pattern.number.matches') : c.isAlpha = false := by
  obtain ⟨l, hl, rfl⟩ := Pattern.mem_number.mp hword
  obtain ⟨d, rest, ht, hd, -⟩ := Literal.text_eq_cons hl
  rw [ht] at h
  rwa [← (List.cons_prefix_cons.mp h).1]

/-- Where the scan finds a literal, none that begins there is longer. -/
theorem length_number_le {cs rest word : List Char} {l : Literal} (hscan : Literal.scan? cs = some (l, rest))
    (h : word <+: cs) (hword : word ∈ Pattern.number.matches') : word.length ≤ l.text.length := by
  obtain ⟨l', hl', rfl⟩ := Pattern.mem_number.mp hword
  obtain ⟨behind, rfl⟩ := h
  obtain ⟨l'', rest', hscan', hle⟩ := Literal.scan?_longest hl' behind
  rw [hscan] at hscan'
  obtain ⟨rfl, -⟩ := Prod.mk.inj (Option.some.inj hscan')
  exact hle

/-- Where neither a name nor a literal begins, a word is the first character. -/
theorem single_of_word {c : Char} {cs word : List Char} (ha : ¬ c.isAlpha = true)
    (hscan : Literal.scan? (c :: cs) = none) (h : word <+: c :: cs) (hword : IsWord word) :
    word.length = 1 ∧ (c = '#' ∨ ∃ s, Symbol.ofChar? c = some s) := by
  rcases hword.kinds with hword | hword | ⟨d, rfl, hd⟩
  · obtain ⟨l, hl, rfl⟩ := Pattern.mem_number.mp hword
    obtain ⟨behind, hbehind⟩ := h
    obtain ⟨l', rest, hscan', -⟩ := Literal.scan?_longest hl behind
    rw [hbehind, hscan] at hscan'
    cases hscan'
  · exact absurd (isAlpha_of_identifier h hword) ha
  · rw [(List.cons_prefix_cons.mp h).1] at hd
    exact ⟨rfl, hd⟩

/-- A lexeme is the longest word where it begins. -/
theorem longest_head (c : Char) (cs : List Char) :
    ∃ text, c :: cs = text ++ (head c cs).2 ∧ Longest text (head c cs).2 (head c cs).1 := by
  unfold head
  split
  · rename_i ha
    have hcs : c :: cs = (c :: cs.takeWhile Char.isAlphanum) ++ cs.dropWhile Char.isAlphanum := by
      rw [List.cons_append, List.takeWhile_append_dropWhile]
    have hname : c :: cs.takeWhile Char.isAlphanum ∈ Pattern.identifier.matches' :=
      Pattern.mem_identifier.mpr ⟨c, _, rfl, ha, List.all_eq_true.mp List.all_takeWhile⟩
    refine ⟨_, hcs, .token (ofWord_ofName hname) ?_⟩
    rw [← hcs]
    intro word hword h
    rcases h.kinds with h | h | ⟨d, rfl, -⟩
    · rw [isAlpha_of_number hword h] at ha
      cases ha
    · exact length_identifier_le hword h
    · exact Nat.le_add_left 1 _
  rename_i ha
  split
  · rename_i l rest hscan
    have hl := Literal.wellFormed_of_scan? hscan
    have hcs := Literal.text_append_of_scan? hscan
    refine ⟨l.text, hcs.symm, .token (.number hl rfl) ?_⟩
    rw [hcs]
    intro word hword h
    rcases h.kinds with h | h | ⟨d, rfl, -⟩
    · exact length_number_le hscan hword h
    · exact absurd (isAlpha_of_identifier hword h) ha
    · exact List.length_pos_iff.mpr (OfWord.number hl rfl).isWord.ne_nil
  · rename_i hscan
    split
    · rename_i s hs
      have hfixed : ([c], Token.symbol s) ∈ fixed :=
        mem_fixed.mpr (.inr (.inl ⟨s, by rw [Symbol.char_of_ofChar? hs], rfl⟩))
      exact ⟨[c], rfl, .token (.fixed hfixed) fun word hword h => Nat.le_of_eq (single_of_word ha hscan hword h).1⟩
    · rename_i hs
      split
      · rename_i hc
        subst hc
        have hfixed : (['#'], Token.keyword .declare) ∈ fixed := by decide
        exact ⟨['#'], rfl, .token (.fixed hfixed) fun word hword h => Nat.le_of_eq (single_of_word ha hscan hword h).1⟩
      · rename_i hc
        refine ⟨[c], rfl, .stray rfl ?_⟩
        intro word hword h
        rcases (single_of_word ha hscan hword h).2 with h | ⟨s, h⟩
        · exact hc h
        · rw [hs] at h
          cases h

/-! ## Side by side -/

/-- The spans lie in a text that begins at byte `offset`, with nothing but blanks before them, between
    them and behind them. -/
inductive Tiles : Nat → List Char → List Span → Prop
  | blank {offset : Nat} {cs : List Char} (blank : ∀ c ∈ cs, isBlank c = true) : Tiles offset cs []
  | lexeme {offset : Nat} {blanks rest : List Char} {span : Span} {spans : List Span}
    (blank : ∀ c ∈ blanks, isBlank c = true) (start : span.start = offset + byteLength blanks)
    (stop : span.stop = span.start + byteLength span.text) (bare : ∀ c ∈ span.text, isBlank c = false)
    (longest : Longest span.text rest span.lexeme) (tiles : Tiles span.stop rest spans) :
    Tiles offset (blanks ++ (span.text ++ rest)) (span :: spans)

theorem stop_eq_of_mem {offset : Nat} {cs : List Char} {span : Span} (h : span ∈ spansFrom offset cs) :
    span.stop = span.start + byteLength span.text := by
  fun_induction spansFrom offset cs with
  | case1 => cases h
  | case2 offset cs l rest hn body text start stop ih =>
    rcases List.mem_cons.mp h with rfl | h
    · rfl
    · exact ih h

/-- No lexeme holds a blank. -/
theorem Longest.bare {text rest : List Char} {l : Lexeme} (h : Longest text rest l)
    (hfirst : ∀ c ∈ text.head?, isBlank c = false) : ∀ c ∈ text, isBlank c = false := by
  cases h with
  | token word => exact word.isWord.isBlank
  | stray alone =>
    subst alone
    exact List.forall_mem_singleton.mpr (hfirst _ rfl)

theorem longest_of_next? {cs rest : List Char} {l : Lexeme} (h : next? cs = some (l, rest)) :
    ∃ text, cs.dropWhile isBlank = text ++ rest ∧ Longest text rest l ∧ ∀ c ∈ text, isBlank c = false := by
  have hfirst := List.head?_dropWhile_not isBlank cs
  unfold next? at h
  split at h
  · cases h
  · rename_i c tail hd
    obtain ⟨text, hcs, hlongest⟩ := longest_head c tail
    rw [Option.some.inj h] at hcs hlongest
    refine ⟨text, hd.trans hcs, hlongest, hlongest.bare ?_⟩
    intro d hmem
    obtain ⟨text', rfl⟩ := List.head?_eq_some_iff.mp hmem
    rw [hd, hcs] at hfirst
    exact hfirst

/-- The lexemes and the blanks between them make up the text. -/
theorem tiles_spansFrom (offset : Nat) (cs : List Char) : Tiles offset cs (spansFrom offset cs) := by
  induction cs using textInduction generalizing offset with
  | blank cs hn =>
    rw [spansFrom_of_none hn]
    exact .blank (List.dropWhile_eq_nil_iff.mp (dropWhile_isBlank_of_none hn))
  | lexeme cs l rest hn ih =>
    obtain ⟨span, rfl, hstart, hcs, hspans⟩ := spansFrom_of_some hn offset
    have hstop := stop_eq_of_mem (hspans ▸ List.mem_cons_self)
    have hblank : ∀ c ∈ cs.takeWhile isBlank, isBlank c = true := List.all_eq_true.mp List.all_takeWhile
    obtain ⟨text, ht, hlongest, hbare⟩ := longest_of_next? hn
    have hsplit := List.takeWhile_append_dropWhile (p := isBlank) (l := cs)
    obtain rfl : text = span.text := by
      rw [ht] at hsplit
      exact List.append_cancel_right (List.append_cancel_left (hsplit.trans hcs))
    rw [hspans, ← hstop, ← hsplit, ht]
    exact .lexeme hblank hstart hstop hbare hlongest (ih span.stop)

section

variable {offset : Nat} {cs : List Char} {spans : List Span}

theorem Tiles.start_le (h : Tiles offset cs spans) : ∀ span ∈ spans, offset ≤ span.start := by
  induction h with
  | blank => exact fun _ hm => nomatch hm
  | lexeme blank start stop bare longest tiles ih =>
    rw [List.forall_mem_cons]
    refine ⟨by omega, ?_⟩
    intro span hspan
    have := ih span hspan
    omega

theorem Tiles.pairwise (h : Tiles offset cs spans) : spans.Pairwise fun s t => s.stop ≤ t.start := by
  induction h with
  | blank => exact .nil
  | lexeme blank start stop bare longest tiles ih => exact List.pairwise_cons.mpr ⟨tiles.start_le, ih⟩

/-- Where a span stands in the text. -/
theorem Tiles.stands (h : Tiles offset cs spans) {span : Span} (hs : span ∈ spans) :
    ∃ before rest, cs = before ++ (span.text ++ rest) ∧ span.start = offset + byteLength before ∧
      span.stop = offset + byteLength (before ++ span.text) ∧ Longest span.text rest span.lexeme := by
  induction h with
  | blank => cases hs
  | @lexeme offset blanks rest first spans blank start stop bare longest tiles ih =>
    rcases List.mem_cons.mp hs with rfl | hs
    · refine ⟨blanks, rest, rfl, start, ?_, longest⟩
      rw [byteLength_append]
      omega
    · obtain ⟨before, rest', rfl, hstart, hstop, hlongest⟩ := ih hs
      refine ⟨blanks ++ (first.text ++ before), rest', by simp only [List.append_assoc], ?_, ?_, hlongest⟩
      · simp only [byteLength_append]
        omega
      · simp only [byteLength_append] at hstop ⊢
        omega

theorem byteLength_pos {text : List Char} (h : text ≠ []) : 0 < byteLength text := by
  obtain ⟨c, rest, rfl⟩ := List.exists_cons_of_ne_nil h
  have hc := c.utf8Size_pos
  rw [byteLength]
  omega

/-- A character stands in the first part of a text or in the second. -/
theorem part_of_append {c : Char} {before after a b : List Char} (h : before ++ c :: after = a ++ b) :
    (∃ a', a = before ++ c :: a') ∨ ∃ b', before = a ++ b' ∧ b = b' ++ c :: after := by
  rcases List.append_eq_append_iff.mp h with ⟨middle, rfl, hm⟩ | ⟨middle, rfl, hm⟩
  · cases middle with
    | nil => exact .inr ⟨[], by simp, hm.symm⟩
    | cons d middle =>
      obtain ⟨rfl, -⟩ := List.cons.inj hm
      exact .inl ⟨middle, rfl⟩
  · exact .inr ⟨middle, rfl, hm⟩

/-- The spans cover every character but the blanks. -/
theorem Tiles.covers (h : Tiles offset cs spans) {before after : List Char} {c : Char}
    (hc : cs = before ++ c :: after) :
    (∃ span ∈ spans, span.start ≤ offset + byteLength before ∧ offset + byteLength before < span.stop) ↔
      isBlank c = false := by
  induction h generalizing before with
  | blank blank =>
    rw [hc] at blank
    have hblank := blank c (by simp)
    simp [hblank]
  | @lexeme offset blanks rest first spans blank start stop bare longest tiles ih =>
    rcases part_of_append hc.symm with ⟨more, rfl⟩ | ⟨behind, rfl, hbehind⟩
    · have hblank := blank c (by simp)
      have hsize := c.utf8Size_pos
      rw [byteLength_append, byteLength] at start
      refine iff_of_false ?_ (by simp [hblank])
      rintro ⟨span, hspan, hle, -⟩
      rcases List.mem_cons.mp hspan with rfl | hspan
      · omega
      · have hlater := tiles.start_le span hspan
        omega
    rcases part_of_append hbehind.symm with ⟨more, hmore⟩ | ⟨later, rfl, hlater⟩
    · have hsize := c.utf8Size_pos
      have hbare := bare c (by simp [hmore])
      rw [hmore, byteLength_append, byteLength] at stop
      refine iff_of_true ⟨first, List.mem_cons_self, ?_, ?_⟩ hbare
      · rw [byteLength_append]
        omega
      · rw [byteLength_append]
        omega
    · have hplace : offset + byteLength (blanks ++ (first.text ++ later)) = first.stop + byteLength later := by
        simp only [byteLength_append]
        omega
      rw [hplace, ← ih hlater]
      constructor
      · rintro ⟨span, hspan, hle, hlt⟩
        rcases List.mem_cons.mp hspan with rfl | hspan
        · omega
        · exact ⟨span, hspan, hle, hlt⟩
      · rintro ⟨span, hspan, hle, hlt⟩
        exact ⟨span, List.mem_cons_of_mem _ hspan, hle, hlt⟩

end

/-! ## The text as a whole -/

theorem tiles_spans (cs : List Char) : Tiles 0 cs (spans cs) := tiles_spansFrom 0 cs

/-- The lexemes of a text begin and end between characters, one behind the other, and none is empty.
    Each is the longest literal, name or fixed spelling where it begins, and a keyword just if the
    whole of it is spelled like one; a character is stray just if no such word begins there. What they
    leave out are blanks, and they hold none. -/
theorem spans_tile (cs : List Char) :
    (spans cs).Pairwise (fun s t => s.stop ≤ t.start) ∧
    (∀ span ∈ spans cs, ∃ before rest, cs = before ++ (span.text ++ rest) ∧ span.start = byteLength before ∧
      span.stop = byteLength (before ++ span.text) ∧ span.start < span.stop ∧
      Longest span.text rest span.lexeme ∧
      ((∃ c, span.lexeme = .stray c) ↔ ∀ word, word <+: span.text ++ rest → ¬ IsWord word) ∧
      ∀ k : Keyword,
        span.lexeme = .token (.keyword k) ↔ span.text = k.spelling.toList ∨ k = .declare ∧ span.text = ['#']) ∧
    (∀ before c after, cs = before ++ c :: after →
      ((∃ span ∈ spans cs, span.start ≤ byteLength before ∧ byteLength before < span.stop) ↔
        c ∉ [' ', '\t', '\x0d', '\n', '\x0b', '\x0c'])) := by
  have h := tiles_spans cs
  refine ⟨h.pairwise, ?_, ?_⟩
  · intro span hspan
    obtain ⟨before, rest, hcs, hstart, hstop, hlongest⟩ := h.stands hspan
    rw [Nat.zero_add] at hstart hstop
    have hpos := byteLength_pos hlongest.ne_nil
    refine ⟨before, rest, hcs, hstart, hstop, ?_, hlongest, hlongest.stray_iff, hlongest.keyword_iff⟩
    rw [byteLength_append] at hstop
    omega
  · intro before c after hc
    have hcovers := h.covers hc
    rw [Nat.zero_add] at hcovers
    rw [hcovers, ← Bool.not_eq_true, not_iff_not]
    simp [isBlank, or_assoc]

/-- A name that begins like a keyword, and a stray character of two bytes. -/
example :
    spans "exitx#λ pow".toList =
      [⟨.token (.name "exitx"), "exitx".toList, 0, 5⟩, ⟨.token (.keyword .declare), ['#'], 5, 6⟩,
        ⟨.stray 'λ', ['λ'], 6, 8⟩, ⟨.token (.keyword .power), "pow".toList, 9, 12⟩] := by cbv

end Lexeme

end Reckoner
