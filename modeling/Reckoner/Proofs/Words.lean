/-
  Reckoner.Proofs.Words — the words of the language and their tokens.

  A word is a text that is a literal, a name or one of the fixed spellings, and it has one token. Of
  the literals that a text begins with the scan takes the longest, though it may have to leave a mark
  or a point that seemed to go on with it.

  - `Literal.scan?_longest`: the scan goes at least as far as any literal.
  - `mem_fixed`: the fixed spellings are those of the keywords and symbols, and `#`.
  - `IsWord.isBlank`: no word holds a blank.
  - `OfWord.unique`: a word has one token.
-/

import Reckoner.Proofs.Patterns
import Reckoner.Proofs.Skipping

namespace Reckoner

/-! ## The longest literal -/

namespace Literal

/-- The scan goes at least as far as any literal that the text begins with. -/
theorem scan?_longest {l : Literal} (h : l.WellFormed) (behind : List Char) :
    ∃ l' rest, scan? (l.text ++ behind) = some (l', rest) ∧ l.text.length ≤ l'.text.length := by
  obtain ⟨whole, fraction, exponent⟩ := l
  obtain ⟨hwhole, hfraction, hdigit, hexponent⟩ := h
  have hempty : ¬ (whole = [] ∧ fraction.getD [] = []) := by
    rintro ⟨hw, hf⟩
    obtain ⟨digits, hd, hne⟩ := hdigit.resolve_left fun h => h hw
    obtain rfl := Option.mem_def.mp hd
    exact hne hf
  -- digits behind the literal go on in its last part; a point or a mark begins a part that it lacks
  cases exponent with
  | some x =>
    have hx := hexponent x rfl
    have hstop := stop_fractionText fraction (hx.stop behind)
    have hcs : text ⟨whole, fraction, some x⟩ ++ behind = whole ++ (fractionText fraction ++ (x.text ++ behind)) := by
      simp only [text, exponentText, List.append_assoc]
    refine ⟨⟨whole, fraction, some { x with digits := x.digits ++ behind.takeWhile Char.isDigit }⟩,
      behind.dropWhile Char.isDigit, ?_, ?_⟩
    · simp only [hcs, scan?, takeWhile_digits hwhole hstop, dropWhile_digits hwhole hstop,
        scanFraction_append hfraction (hx.stop behind), scanExponent_append hx]
      rw [if_neg hempty]
    · simp only [text, exponentText, Exponent.text, List.length_append, List.length_cons]
      omega
  | none =>
    cases fraction with
    | some digits =>
      have hdigits := hfraction digits rfl
      have hstop : ∀ c ∈ ('.' :: (digits ++ behind)).head?, c.isDigit = false := by
        rintro c ⟨⟩
        rfl
      have hcs : text ⟨whole, some digits, none⟩ ++ behind = whole ++ '.' :: (digits ++ behind) := by
        simp only [text, fractionText, exponentText, List.append_nil, List.append_assoc, List.cons_append]
      have hempty' : ¬ (whole = [] ∧ digits ++ behind.takeWhile Char.isDigit = []) := fun h =>
        hempty ⟨h.1, (List.append_eq_nil_iff.mp h.2).1⟩
      refine ⟨⟨whole, some (digits ++ behind.takeWhile Char.isDigit), (scanExponent (behind.dropWhile Char.isDigit)).1⟩,
        (scanExponent (behind.dropWhile Char.isDigit)).2, ?_, ?_⟩
      · simp only [hcs, scan?, takeWhile_digits hwhole hstop, dropWhile_digits hwhole hstop, scanFraction,
          List.takeWhile_append_of_pos hdigits, List.dropWhile_append_of_pos hdigits]
        rw [Option.getD_some, if_neg hempty']
      · simp only [text, fractionText, exponentText, List.length_append, List.length_cons, List.length_nil]
        omega
    | none =>
      have hcs : text ⟨whole, none, none⟩ ++ behind = whole ++ behind := by
        simp only [text, fractionText, exponentText, List.append_nil]
      have hne : ¬ (whole ++ behind.takeWhile Char.isDigit = [] ∧
          (scanFraction (behind.dropWhile Char.isDigit)).1.getD [] = []) := fun h =>
        hempty ⟨(List.append_eq_nil_iff.mp h.1).1, rfl⟩
      refine ⟨⟨whole ++ behind.takeWhile Char.isDigit, (scanFraction (behind.dropWhile Char.isDigit)).1,
        (scanExponent (scanFraction (behind.dropWhile Char.isDigit)).2).1⟩,
        (scanExponent (scanFraction (behind.dropWhile Char.isDigit)).2).2, ?_, ?_⟩
      · simp only [hcs, scan?, List.takeWhile_append_of_pos hwhole, List.dropWhile_append_of_pos hwhole]
        rw [if_neg hne]
      · simp only [text, fractionText, exponentText, List.length_append, List.length_nil]
        omega

/-- A mark that no digits follow is left where it stands, and so is a second point. -/
example :
    scan? "1.e+".toList = some (⟨['1'], some [], none⟩, "e+".toList) ∧
      scan? "1..2".toList = some (⟨['1'], some [], none⟩, ".2".toList) := by decide

end Literal

/-! ## Words and their tokens -/

namespace Token

/-- The fixed spellings. -/
def fixed : List (List Char × Token) :=
  [("let".toList, .keyword .declare), ("#".toList, .keyword .declare), ("exit".toList, .keyword .exit),
    ("sqrt".toList, .keyword .root), ("pow".toList, .keyword .power), ("+".toList, .symbol .plus),
    ("-".toList, .symbol .minus), ("*".toList, .symbol .star), ("/".toList, .symbol .slash),
    ("%".toList, .symbol .percent), ("(".toList, .symbol .opening), (")".toList, .symbol .closing),
    (",".toList, .symbol .comma), ("=".toList, .symbol .equals)]

/-- A literal, a name or a fixed spelling. -/
def IsWord (cs : List Char) : Prop :=
  cs ∈ Pattern.number.matches' ∨ cs ∈ Pattern.identifier.matches' ∨ ∃ t, (cs, t) ∈ fixed

/-- The token of a word. A fixed spelling is no name. -/
inductive OfWord (cs : List Char) : Token → Prop
  | number {l : Literal} (h : l.WellFormed) (spelled : l.text = cs) : OfWord cs (.number l.value)
  | name (h : cs ∈ Pattern.identifier.matches') (free : ∀ t, (cs, t) ∉ fixed) : OfWord cs (.name (String.ofList cs))
  | fixed {t : Token} (h : (cs, t) ∈ fixed) : OfWord cs t

variable {cs : List Char} {t : Token}

theorem OfWord.isWord (h : OfWord cs t) : IsWord cs := by
  cases h with
  | number h spelled => exact .inl (Pattern.mem_number.mpr ⟨_, h, spelled⟩)
  | name h free => exact .inr (.inl h)
  | fixed h => exact .inr (.inr ⟨_, h⟩)

theorem mem_fixed : (cs, t) ∈ fixed ↔
    (∃ k : Keyword, cs = k.spelling.toList ∧ t = .keyword k) ∨ (∃ s : Symbol, cs = [s.char] ∧ t = .symbol s) ∨
      cs = ['#'] ∧ t = .keyword .declare := by
  constructor
  · intro h
    simp only [fixed, List.mem_cons, Prod.mk.injEq, List.not_mem_nil, or_false] at h
    rcases h with ⟨rfl, rfl⟩ | ⟨rfl, rfl⟩ | ⟨rfl, rfl⟩ | ⟨rfl, rfl⟩ | ⟨rfl, rfl⟩ | h
    · exact .inl ⟨.declare, rfl, rfl⟩
    · exact .inr (.inr ⟨rfl, rfl⟩)
    · exact .inl ⟨.exit, rfl, rfl⟩
    · exact .inl ⟨.root, rfl, rfl⟩
    · exact .inl ⟨.power, rfl, rfl⟩
    · rcases h with ⟨rfl, rfl⟩ | ⟨rfl, rfl⟩ | ⟨rfl, rfl⟩ | ⟨rfl, rfl⟩ | ⟨rfl, rfl⟩ | ⟨rfl, rfl⟩ | ⟨rfl, rfl⟩ |
        ⟨rfl, rfl⟩ | ⟨rfl, rfl⟩ <;> exact .inr (.inl ⟨_, rfl, rfl⟩)
  · rintro (⟨k, rfl, rfl⟩ | ⟨s, rfl, rfl⟩ | ⟨rfl, rfl⟩)
    · cases k <;> decide
    · cases s <;> decide
    · decide

theorem spelling_mem_identifier (k : Keyword) : k.spelling.toList ∈ Pattern.identifier.matches' := by
  apply Pattern.isIdentifier_iff.mp
  cases k <;> decide

/-- A word that is neither a literal nor a name is a single character. -/
theorem IsWord.kinds (h : IsWord cs) :
    cs ∈ Pattern.number.matches' ∨ cs ∈ Pattern.identifier.matches' ∨
      ∃ c, cs = [c] ∧ (c = '#' ∨ ∃ s, Symbol.ofChar? c = some s) := by
  rcases h with h | h | ⟨t, h⟩
  · exact .inl h
  · exact .inr (.inl h)
  · rcases mem_fixed.mp h with ⟨k, rfl, -⟩ | ⟨s, rfl, -⟩ | ⟨rfl, -⟩
    · exact .inr (.inl (spelling_mem_identifier k))
    · exact .inr (.inr ⟨s.char, rfl, .inr ⟨s, Symbol.ofChar?_char s⟩⟩)
    · exact .inr (.inr ⟨'#', rfl, .inl rfl⟩)

theorem IsWord.ne_nil (h : IsWord cs) : cs ≠ [] := by
  rcases h.kinds with h | h | ⟨c, rfl, -⟩
  · obtain ⟨l, hl, rfl⟩ := Pattern.mem_number.mp h
    obtain ⟨c, rest, ht, -⟩ := Literal.text_eq_cons hl
    rw [ht]
    exact List.cons_ne_nil c rest
  · obtain ⟨c, rest, rfl, -⟩ := Pattern.mem_identifier.mp h
    exact List.cons_ne_nil c rest
  · exact List.cons_ne_nil c []

theorem isBlank_of_spells {c : Char} (h : Literal.Spells c) : isBlank c = false := by
  rcases h with h | rfl | rfl | rfl
  · exact isBlank_of_isAlphanum h
  all_goals rfl

/-- No word holds a blank. -/
theorem IsWord.isBlank (h : IsWord cs) : ∀ c ∈ cs, isBlank c = false := by
  rcases h.kinds with h | h | ⟨c, rfl, hc⟩
  · obtain ⟨l, hl, rfl⟩ := Pattern.mem_number.mp h
    exact fun c hc => isBlank_of_spells (hl.spells hc)
  · obtain ⟨c, rest, rfl, hc, hrest⟩ := Pattern.mem_identifier.mp h
    rw [List.forall_mem_cons]
    exact ⟨isBlank_of_isAlpha hc, fun d hd => isBlank_of_isAlphanum (hrest d hd)⟩
  · rw [List.forall_mem_singleton]
    rcases hc with rfl | ⟨s, hs⟩
    · rfl
    · rw [← Symbol.char_of_ofChar? hs]
      exact s.isBlank_char

theorem not_number_of_identifier (h : cs ∈ Pattern.identifier.matches') {l : Literal} (hl : l.WellFormed) :
    l.text ≠ cs := by
  obtain ⟨c, rest, rfl, ha, -⟩ := Pattern.mem_identifier.mp h
  obtain ⟨d, rest', ht, hd, -⟩ := Literal.text_eq_cons hl
  rw [ht]
  intro he
  rw [(List.cons.inj he).1, ha] at hd
  cases hd

theorem not_number_of_fixed (h : (cs, t) ∈ fixed) {l : Literal} (hl : l.WellFormed) : l.text ≠ cs := by
  rcases mem_fixed.mp h with ⟨k, rfl, -⟩ | ⟨s, rfl, -⟩ | ⟨rfl, -⟩
  · exact not_number_of_identifier (spelling_mem_identifier k) hl
  · intro he
    have hscan := Literal.scan?_text hl
    rw [he] at hscan
    cases s <;> cases hscan
  · intro he
    have hscan := Literal.scan?_text hl
    rw [he] at hscan
    cases hscan

/-- A word has one token. -/
theorem OfWord.unique {u : Token} (ht : OfWord cs t) (hu : OfWord cs u) : t = u := by
  have hfixed : ∀ p ∈ Token.fixed, ∀ q ∈ Token.fixed, p.1 = q.1 → p.2 = q.2 := by decide
  cases ht with
  | number h spelled =>
    cases hu with
    | number h' spelled' => rw [Literal.text_injective h h' (spelled.trans spelled'.symm)]
    | name h' free => exact absurd spelled (not_number_of_identifier h' h)
    | fixed h' => exact absurd spelled (not_number_of_fixed h' h)
  | name h free =>
    cases hu with
    | number h' spelled' => exact absurd spelled' (not_number_of_identifier h h')
    | name h' free' => rfl
    | fixed h' => exact absurd h' (free u)
  | fixed h =>
    cases hu with
    | number h' spelled' => exact absurd spelled' (not_number_of_fixed h h')
    | name h' free' => exact absurd h (free' t)
    | fixed h' => exact hfixed _ h _ h' rfl

/-- A name or keyword, as the lexer tells them apart. -/
theorem ofWord_ofName (h : cs ∈ Pattern.identifier.matches') : OfWord cs (ofName (String.ofList cs)) := by
  unfold ofName
  split
  · rename_i k hk
    have hspelling := List.find?_some hk
    refine .fixed (mem_fixed.mpr (.inl ⟨k, ?_, rfl⟩))
    rw [eq_of_beq hspelling, String.toList_ofList]
  · rename_i hnone
    refine .name h ?_
    intro t ht
    obtain ⟨c, rest, rfl, ha, -⟩ := Pattern.mem_identifier.mp h
    rcases mem_fixed.mp ht with ⟨k, hk, -⟩ | ⟨s, hs, -⟩ | ⟨hc, -⟩
    · refine Keyword.ne_spelling_of_ofSpelling? hnone k ?_
      rw [hk, String.ofList_toList]
    · have hnone := s.isAlphanum_char
      rw [← (List.cons.inj hs).1, Char.isAlphanum, ha] at hnone
      cases hnone
    · rw [(List.cons.inj hc).1] at ha
      cases ha

end Token

end Reckoner
