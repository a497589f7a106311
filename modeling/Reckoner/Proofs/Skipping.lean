/-
  Reckoner.Proofs.Skipping — skipping goes by characters, and comes out between lexemes.

  A delimiter is a symbol that stands in no other lexeme; plus and minus are none, for they may
  stand in an exponent. Going behind the next character that spells a delimiter is therefore the
  same as going behind the next lexeme that is one.

  - `all_append_blank`: the lexemes before a blank and those behind it.
  - `cut_all`: a text is cut at a delimiter where its lexemes are.
  - `lexemes_skipPast`: what a scanner has left to read when it has skipped.
-/

import Reckoner.Proofs.LineByLine

namespace Reckoner

/-! ## Blanks between lexemes -/

/-- A blank comes between the lexemes before it and those behind it. -/
theorem Lexeme.all_append_blank {c : Char} (hc : isBlank c = true) (a b : List Char) :
    all (a ++ c :: b) = all a ++ all b := by
  induction a using textInduction with
  | blank a ha =>
    have h := next?_append_blank hc a b
    rw [ha] at h
    rw [all_of_none ha, List.nil_append]
    rcases hb : next? b with _ | ⟨l, rest⟩
    · rw [all_of_none (h.trans hb), all_of_none hb]
    · rw [all_of_some (h.trans hb), all_of_some hb]
  | lexeme a l rest ha ih =>
    have h := next?_append_blank hc a b
    rw [ha] at h
    rw [all_of_some h, all_of_some ha, ih, List.cons_append]

/-! ## Delimiters -/

/-- A symbol that stands in no literal. -/
def Symbol.IsDelimiter (d : Symbol) : Prop := d ≠ .plus ∧ d ≠ .minus

theorem Symbol.isDelimiter_equals : equals.IsDelimiter := ⟨by decide, by decide⟩

theorem Symbol.char_injective {d e : Symbol} (h : d.char = e.char) : d = e :=
  Option.some.inj (by rw [← ofChar?_char d, h, ofChar?_char])

theorem Symbol.isBlank_char (d : Symbol) : isBlank d.char = false := by cases d <;> rfl

theorem Symbol.isAlphanum_char (d : Symbol) : d.char.isAlphanum = false := by cases d <;> rfl

/-- The characters of a literal. -/
def Literal.Spells (c : Char) : Prop := c.isAlphanum = true ∨ c = '.' ∨ c = '+' ∨ c = '-'

theorem Literal.spells_of_isDigit {c : Char} (h : c.isDigit = true) : Spells c :=
  .inl (by rw [Char.isAlphanum, h, Bool.or_true])

theorem Literal.Exponent.WellFormed.spells {x : Exponent} (h : x.WellFormed) {c : Char} (hc : c ∈ x.text) :
    Spells c := by
  obtain ⟨hmark, hsign, -, hdigits⟩ := h
  rw [text, List.mem_cons, List.mem_append, Option.mem_toList] at hc
  rcases hc with rfl | hc | hc
  · rcases hmark with he | he <;> rw [he] <;> exact .inl rfl
  · exact .inr (.inr (hsign c hc))
  · exact spells_of_isDigit (hdigits c hc)

theorem Literal.WellFormed.spells {l : Literal} (h : l.WellFormed) {c : Char} (hc : c ∈ l.text) : Spells c := by
  rw [text, List.mem_append, List.mem_append] at hc
  rcases hc with hc | hc | hc
  · exact spells_of_isDigit (h.whole c hc)
  · rcases hf : l.fraction with _ | digits
    · rw [hf] at hc
      cases hc
    · rw [hf, fractionText, List.mem_cons] at hc
      rcases hc with rfl | hc
      · exact .inr (.inl rfl)
      · exact spells_of_isDigit (h.fraction digits hf c hc)
  · rcases hx : l.exponent with _ | x
    · rw [hx] at hc
      cases hc
    · rw [hx] at hc
      exact (h.exponent x hx).spells hc

theorem Symbol.IsDelimiter.not_spells {d : Symbol} (h : d.IsDelimiter) : ¬ Literal.Spells d.char := by
  obtain ⟨hp, hm⟩ := h
  rintro (ha | hc | hc | hc)
  · rw [isAlphanum_char] at ha
    cases ha
  · cases d <;> cases hc
  · exact hp (char_injective hc)
  · exact hm (char_injective hc)

namespace Lexeme

/-- The lexeme is the delimiter, or does not hold it. -/
def Parts (d : Symbol) (l : Lexeme) (text : List Char) : Prop :=
  l = .token (.symbol d) ∧ text = [d.char] ∨ l ≠ .token (.symbol d) ∧ d.char ∉ text

theorem ofName_ne_symbol (name : String) (d : Symbol) : Token.ofName name ≠ .symbol d := by
  unfold Token.ofName
  split <;> exact nofun

theorem parts_head {d : Symbol} (hd : d.IsDelimiter) (c : Char) (cs : List Char) :
    ∃ text, c :: cs = text ++ (head c cs).2 ∧ Parts d (head c cs).1 text := by
  unfold head
  split
  · rename_i ha
    refine ⟨c :: cs.takeWhile Char.isAlphanum, ?_, .inr ⟨?_, ?_⟩⟩
    · rw [List.cons_append, List.takeWhile_append_dropWhile]
    · intro h
      exact ofName_ne_symbol _ _ (token.inj h)
    · intro hm
      have ha' : d.char.isAlphanum = true := by
        rcases List.mem_cons.mp hm with h | h
        · rw [h, Char.isAlphanum, ha, Bool.true_or]
        · exact List.all_eq_true.mp List.all_takeWhile _ h
      rw [d.isAlphanum_char] at ha'
      cases ha'
  split
  · rename_i l rest hs
    refine ⟨l.text, (Literal.text_append_of_scan? hs).symm, .inr ⟨by simp, ?_⟩⟩
    intro hm
    exact hd.not_spells ((Literal.wellFormed_of_scan? hs).spells hm)
  split
  · rename_i s hs
    have hc := Symbol.char_of_ofChar? hs
    refine ⟨[c], rfl, ?_⟩
    by_cases h : s = d
    · subst h
      exact .inl ⟨rfl, by rw [hc]⟩
    · refine .inr ⟨fun he => h (Token.symbol.inj (token.inj he)), ?_⟩
      rw [List.mem_singleton, ← hc]
      intro he
      exact h (Symbol.char_injective he).symm
  · rename_i hs
    have hc : d.char ∉ [c] := by
      rw [List.mem_singleton]
      rintro rfl
      rw [Symbol.ofChar?_char] at hs
      cases hs
    split
    · exact ⟨[c], rfl, .inr ⟨by simp, hc⟩⟩
    · exact ⟨[c], rfl, .inr ⟨by simp, hc⟩⟩

theorem parts_of_next? {d : Symbol} (hd : d.IsDelimiter) {cs rest : List Char} {l : Lexeme}
    (h : next? cs = some (l, rest)) :
    ∃ text, cs = cs.takeWhile isBlank ++ (text ++ rest) ∧ Parts d l text := by
  unfold next? at h
  split at h
  · cases h
  · rename_i c tail hc
    obtain ⟨text, ht, hp⟩ := parts_head hd c tail
    rw [Option.some.inj h] at ht hp
    refine ⟨text, ?_, hp⟩
    rw [← ht, ← hc, List.takeWhile_append_dropWhile]

end Lexeme

/-! ## Cutting a text at a delimiter -/

theorem dropWhile_of_not_mem {c : Char} {a : List Char} (h : c ∉ a) (b : List Char) :
    (a ++ b).dropWhile (· != c) = b.dropWhile (· != c) := by
  refine List.dropWhile_append_of_pos ?_
  intro x hx
  rw [bne_iff_ne]
  rintro rfl
  exact h hx

theorem not_mem_blanks {c : Char} (hc : isBlank c = false) (cs : List Char) : c ∉ cs.takeWhile isBlank := by
  intro h
  have hb : isBlank c = true := List.all_eq_true.mp List.all_takeWhile c h
  rw [hc] at hb
  cases hb

namespace Lexeme

/-- A text that holds no delimiter has no such lexeme. Otherwise the lexemes behind the first one
    are those of the text behind it. -/
def Cut (d : Symbol) (ls : List Lexeme) : List Char → Prop
  | [] => .token (.symbol d) ∉ ls
  | _ :: rest => ∃ before, .token (.symbol d) ∉ before ∧ ls = before ++ .token (.symbol d) :: all rest

theorem cut_all {d : Symbol} (hd : d.IsDelimiter) (cs : List Char) : Cut d (all cs) (cs.dropWhile (· != d.char)) := by
  induction cs using textInduction with
  | blank cs h =>
    have hblank : cs = cs.takeWhile isBlank ++ [] := by
      have hd := List.takeWhile_append_dropWhile (p := isBlank) (l := cs)
      rw [dropWhile_isBlank_of_none h] at hd
      exact hd.symm
    rw [all_of_none h, hblank, dropWhile_of_not_mem (not_mem_blanks d.isBlank_char cs)]
    exact List.not_mem_nil
  | lexeme cs l rest h ih =>
    obtain ⟨text, ht, hp⟩ := parts_of_next? hd h
    rw [all_of_some h, ht, dropWhile_of_not_mem (not_mem_blanks d.isBlank_char cs)]
    rcases hp with ⟨rfl, rfl⟩ | ⟨hl, hm⟩
    · rw [List.singleton_append, List.dropWhile_cons_of_neg (by simp)]
      exact ⟨[], List.not_mem_nil, rfl⟩
    · rw [dropWhile_of_not_mem hm]
      rcases hr : rest.dropWhile (· != d.char) with _ | ⟨c, rest'⟩
      · rw [hr] at ih
        exact List.not_mem_cons_of_ne_of_not_mem (Ne.symm hl) ih
      · rw [hr] at ih
        obtain ⟨before, hb, he⟩ := ih
        refine ⟨l :: before, List.not_mem_cons_of_ne_of_not_mem (Ne.symm hl) hb, ?_⟩
        rw [he, List.cons_append]

/-- What stands behind the first delimiter; nothing if there is none. -/
def behind (d : Symbol) (ls : List Lexeme) : List Lexeme := (ls.dropWhile (· != .token (.symbol d))).tail

theorem behind_append_of_not_mem {d : Symbol} {ls : List Lexeme} (h : .token (.symbol d) ∉ ls) (rest : List Lexeme) :
    behind d (ls ++ rest) = behind d rest := by
  have hall : ∀ l ∈ ls, (l != .token (.symbol d)) = true := by
    intro l hl
    rw [bne_iff_ne]
    rintro rfl
    exact h hl
  rw [behind, List.dropWhile_append_of_pos hall, behind]

theorem behind_cons_self (d : Symbol) (rest : List Lexeme) : behind d (.token (.symbol d) :: rest) = rest := by
  rw [behind, List.dropWhile_cons_of_neg (by simp), List.tail_cons]

theorem behind_of_not_mem {d : Symbol} {ls : List Lexeme} (h : .token (.symbol d) ∉ ls) : behind d ls = [] := by
  have hn := behind_append_of_not_mem h []
  rw [List.append_nil] at hn
  exact hn

/-- The lexemes of the text behind a delimiter are those behind its lexeme. -/
theorem all_behind {d : Symbol} (hd : d.IsDelimiter) (cs : List Char) :
    all (cs.dropWhile (· != d.char)).tail = behind d (all cs) := by
  have hc := cut_all hd cs
  rcases hr : cs.dropWhile (· != d.char) with _ | ⟨c, rest⟩
  · rw [hr] at hc
    rw [behind_of_not_mem hc]
    exact all_nil
  · rw [hr] at hc
    obtain ⟨before, hb, he⟩ := hc
    rw [he, behind_append_of_not_mem hb, behind_cons_self, List.tail_cons]

end Lexeme

/-! ## Skipping -/

namespace Scanner

open Lexeme

/-- What is left to read as lexemes, without the token that was put back. -/
def left (s : Scanner) : List Lexeme := all s.text ++ s.reads.flatMap fun read => all read.text

theorem lexemes_of_held {s : Scanner} {t : Token} (h : s.held = some t) : s.lexemes = .token t :: s.left := by
  rw [lexemes, h]
  rfl

theorem lexemes_of_held_none {s : Scanner} (h : s.held = none) : s.lexemes = s.left := by
  rw [lexemes, h]
  rfl

theorem seek_of_delimiter {c : Char} {text : List Char} {d : Char} {rest : List Char}
    (h : text.dropWhile (· != c) = d :: rest) (ended : Bool) (line : Nat) (reads : List Read) :
    seek c ended text line reads = (.ok (), { text := rest, line, reads, ended }) := by
  rw [seek.eq_def, h]

/-- Over lines skipping never fails, and leaves what stands behind the first `c` in all that is left. -/
theorem seek_joined {reads : List Read} (h : AllLines reads) (c : Char) (ended : Bool) (text : List Char) (line : Nat) :
    (seek c ended text line reads).1 = .ok () ∧ (seek c ended text line reads).2.held = none ∧
      (seek c ended text line reads).2.text ++ joined (seek c ended text line reads).2.reads =
        ((text ++ joined reads).dropWhile (· != c)).tail := by
  fun_induction seek c ended text line reads with
  | case1 text line d rest reads hd =>
    refine ⟨rfl, rfl, ?_⟩
    rw [List.dropWhile_append, hd]
    rfl
  | case2 text line hd =>
    refine ⟨rfl, rfl, ?_⟩
    rw [List.dropWhile_append, hd]
    rfl
  | case3 text line message reads hd =>
    obtain ⟨_, hm⟩ := h _ List.mem_cons_self
    cases hm
  | case4 text line next reads hd ih =>
    obtain ⟨hok, hheld, hrest⟩ := ih fun read hm => h read (List.mem_cons_of_mem _ hm)
    refine ⟨hok, hheld, ?_⟩
    have hskip :
        (text ++ joined (.line next :: reads)).dropWhile (· != c) = (next ++ joined reads).dropWhile (· != c) := by
      rw [List.dropWhile_append, hd]
      rfl
    rw [hrest, hskip]

/-- Over lines the delimiter is found, or the end of the source is met. -/
theorem seek_lexemes {d : Symbol} (hd : d.IsDelimiter) {reads : List Read} (h : AllLines reads) (ended : Bool)
    (text : List Char) (line : Nat) :
    (seek d.char ended text line reads).1 = .ok () ∧
      (seek d.char ended text line reads).2.lexemes =
        behind d (all text ++ reads.flatMap fun read => all read.text) := by
  induction reads generalizing text line with
  | nil =>
    have hc := cut_all hd text
    rcases hr : text.dropWhile (· != d.char) with _ | ⟨c, rest⟩
    · rw [hr] at hc
      rw [seek.eq_def, hr, List.flatMap_nil, List.append_nil, behind_of_not_mem hc]
      refine ⟨rfl, ?_⟩
      simp [lexemes]
    · rw [hr] at hc
      obtain ⟨before, hb, he⟩ := hc
      rw [seek_of_delimiter hr, he, List.append_assoc, behind_append_of_not_mem hb, List.cons_append,
        behind_cons_self]
      exact ⟨rfl, rfl⟩
  | cons read reads ih =>
    obtain ⟨next, rfl⟩ := h read List.mem_cons_self
    have hc := cut_all hd text
    rcases hr : text.dropWhile (· != d.char) with _ | ⟨c, rest⟩
    · rw [hr] at hc
      rw [seek.eq_def, hr, behind_append_of_not_mem hc]
      exact ih (fun r hm => h r (List.mem_cons_of_mem _ hm)) next (line + 1)
    · rw [hr] at hc
      obtain ⟨before, hb, he⟩ := hc
      rw [seek_of_delimiter hr, he, List.append_assoc, behind_append_of_not_mem hb, List.cons_append,
        behind_cons_self]
      exact ⟨rfl, rfl⟩

/-- The token is spelled `c`. -/
def SpelledAs (c : Char) (t : Token) : Prop := t.symbol?.map Symbol.char = some c

instance (c : Char) (t : Token) : Decidable (SpelledAs c t) := inferInstanceAs (Decidable (_ = _))

section

variable {c : Char} {s : Scanner} {t : Token}

theorem spelledAs_char {d : Symbol} : SpelledAs d.char t ↔ t = .symbol d := by
  constructor
  · intro h
    cases t with
    | symbol e => rw [Symbol.char_injective (Option.some.inj h)]
    | _ => cases h
  · rintro rfl
    rfl

theorem skipPast_of_held_none (h : s.held = none) (c : Char) :
    s.skipPast c = seek c s.ended s.text s.line s.reads := by
  rw [skipPast, h]
  rfl

theorem skipPast_of_met (h : s.held = some t) (ht : SpelledAs c t) :
    s.skipPast c = (.ok (), { s with held := none }) := by
  obtain ⟨e, he, hc⟩ := Option.map_eq_some_iff.mp ht
  rw [skipPast, h, Option.bind_some, he]
  exact if_pos hc

theorem skipPast_of_other (h : s.held = some t) (ht : ¬ SpelledAs c t) :
    s.skipPast c = seek c s.ended s.text s.line s.reads := by
  rw [skipPast, h, Option.bind_some]
  rcases hsymbol : t.symbol? with _ | e
  · rfl
  · refine if_neg fun hc => ht ?_
    rw [SpelledAs, hsymbol, Option.map_some, hc]

end

/-- Skipping over lines never fails, and leaves the lexemes behind the delimiter; a token that was
    put back counts as the first one. -/
theorem lexemes_skipPast {d : Symbol} (hd : d.IsDelimiter) {s : Scanner} (h : s.Unbroken) :
    (s.skipPast d.char).1 = .ok () ∧ (s.skipPast d.char).2.lexemes = behind d s.lexemes := by
  obtain ⟨hok, hseek⟩ := seek_lexemes hd h s.ended s.text s.line
  rcases ht : s.held with _ | t
  · rw [skipPast_of_held_none ht, lexemes_of_held_none ht]
    exact ⟨hok, hseek⟩
  by_cases htd : SpelledAs d.char t
  · rw [skipPast_of_met ht htd, lexemes_of_held ht, spelledAs_char.mp htd, behind_cons_self]
    exact ⟨rfl, rfl⟩
  · have hm : Lexeme.token (.symbol d) ∉ [Lexeme.token t] := by
      rw [List.mem_singleton]
      intro he
      exact htd (spelledAs_char.mpr (token.inj he).symm)
    rw [skipPast_of_other ht htd, lexemes_of_held ht, ← List.singleton_append, behind_append_of_not_mem hm]
    exact ⟨hok, hseek⟩

end Scanner

end Reckoner
