/-
  Reckoner.Proofs.Spellings — tokens are read back from their spellings.

  A finite number without a sign is spelled in its shortest digits, which are a literal and are
  read as the number, however many digits stand before the point or behind it. A name is taken
  whole, since it is letters and digits alone, and is a name again since it is no keyword. With a
  blank between any two of them, spellings are read one by one.

  - `all_spelling`: one token.
  - `all_spellings`: any number of tokens, joined by blanks.
-/

import Reckoner.Proofs.ReadBack
import Reckoner.Proofs.Shortest

namespace Reckoner

/-- A token that its spelling stands for. The end of the input is spelled in words, and the lexer
    makes a sign a token of its own. -/
def Token.IsWritable : Token → Prop
  | number v => ∃ m, v = .finite false m
  | name n => IsVariable n
  | keyword _ => True
  | symbol _ => True
  | endOfInput => False

theorem Token.ofName_of_isVariable {n : String} (h : IsVariable n) : ofName n = .name n := by
  unfold ofName
  split
  · rename_i k hk
    have hspelling := List.find?_some hk
    exact absurd (eq_of_beq hspelling).symm (h.notKeyword k)
  · rfl

namespace Lexeme

/-- The shortest digits of a magnitude are one literal. -/
theorem all_shortestText (m : Magnitude) :
    all (Binary64.finite false m).shortestText.toList = [.token (.number (.finite false m))] := by
  have hread := m.toBinary64_shortest
  show all (String.ofList ([] ++ m.shortest.positional)).toList = _
  generalize m.shortest = d at hread
  obtain ⟨l, hl, hspelled, hvalue⟩ := d.denotes_positional
  have hnumber : l.value = .finite false m := by rw [Literal.value, Decimal.toBinary64_congr hvalue, hread]
  rw [List.nil_append, String.toList_ofList, ← hspelled, Literal.all_text hl, hnumber]

/-- A name is read up to its end. -/
theorem all_name {n : String} (h : IsVariable n) : all n.toList = [.token (.name n)] := by
  have hname := Token.ofName_of_isVariable h
  have hidentifier := h.identifier
  unfold isIdentifier at hidentifier
  rcases hn : n.toList with _ | ⟨c, cs⟩
  · rw [hn] at hidentifier
    cases hidentifier
  rw [hn] at hidentifier
  obtain ⟨halpha, hrest⟩ := (Bool.and_eq_true _ _).mp hidentifier
  have hblank := isBlank_of_isAlpha halpha
  have htake : cs.takeWhile Char.isAlphanum = cs := List.takeWhile_eq_self_iff.mpr (List.all_eq_true.mp hrest)
  have hdrop : cs.dropWhile Char.isAlphanum = [] := List.dropWhile_eq_nil_iff.mpr (List.all_eq_true.mp hrest)
  have hnext : next? (c :: cs) = some (.token (.name n), []) := by
    rw [next?, List.dropWhile_cons_of_neg (by rw [hblank]; exact Bool.false_ne_true)]
    show some (head c cs) = _
    rw [head, if_pos halpha, htake, hdrop, ← hn, String.ofList_toList, hname]
  rw [all_of_some hnext, all_nil]

theorem all_spelling {t : Token} (h : t.IsWritable) : all t.spelling.toList = [.token t] := by
  cases t with
  | number v =>
    obtain ⟨m, rfl⟩ := h
    exact all_shortestText m
  | name n => exact all_name h
  | keyword k => cases k <;> decide +kernel
  | symbol s =>
    have hchar : (Token.symbol s).spelling.toList = [s.char] := by cases s <;> rfl
    rw [hchar, all_symbol, all_nil]
  | endOfInput => exact h.elim

/-- Tokens whose spellings are joined by blanks are read back, numbers to the last bit. -/
theorem all_spellings (ts : List Token) (h : ∀ t ∈ ts, t.IsWritable) :
    all (" ".intercalate (ts.map Token.spelling)).toList = ts.map .token := by
  induction ts with
  | nil => exact all_nil
  | cons t ts ih =>
    obtain ⟨ht, hts⟩ := List.forall_mem_cons.mp h
    cases ts with
    | nil =>
      show all (" ".intercalate [t.spelling]).toList = [.token t]
      rw [String.intercalate_singleton, all_spelling ht]
    | cons u us =>
      have hblank : (" " : String).toList = [' '] := by decide
      have hjoined : (" ".intercalate ((t :: u :: us).map Token.spelling)).toList =
          t.spelling.toList ++ ' ' :: (" ".intercalate ((u :: us).map Token.spelling)).toList := by
        rw [List.map_cons, List.map_cons, String.intercalate_cons_cons, String.toList_append, String.toList_append,
          hblank, List.append_assoc]
        rfl
      rw [hjoined, all_append_blank (by decide), all_spelling ht, ih hts]
      rfl

/-- A number with a long fraction, and a name that begins like a keyword. -/
theorem all_spellings_tenth :
    all "let lets = 0.1 ) 100000000000000000000000".toList =
      [.keyword .declare, .name "lets", .symbol .equals, .number (.ofBits 0x3fb999999999999a), .symbol .closing,
        .number (.ofBits 0x44b52d02c7e14af6)].map .token := by
  refine (congrArg (fun text : String => all text.toList) ?_).trans (all_spellings _ ?_)
  · decide +kernel
  · have hname : IsVariable "lets" := ⟨by decide, by intro k; cases k <;> decide⟩
    simp only [List.forall_mem_cons, Token.IsWritable]
    exact ⟨trivial, hname, trivial, ⟨_, rfl⟩, trivial, ⟨_, rfl⟩, by simp⟩

/-- The spelling of an infinite number is a name. -/
example : all (Token.number (.infinite false)).spelling.toList = [.token (.name "inf")] := by decide +kernel

end Lexeme

end Reckoner
