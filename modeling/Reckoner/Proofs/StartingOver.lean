/-
  Reckoner.Proofs.StartingOver — what a mistake costs.

  Behind a mistake a run goes on after the next equals sign. A text of expressions, and what
  follows it behind an equals sign, are therefore calculated as if each stood alone. Only where the
  first text ends within an expression is it otherwise: the equals sign itself is then the mistake
  and used up, so that skipping goes behind the next one (`an_open_expression_takes_the_next_statement`).

  - `results_ahead`: the results at a desk that has more to read.
  - `run_start_over`: what a run over both texts writes.
-/

import Reckoner.Proofs.Evaluated
import Reckoner.Proofs.SameLexemes

namespace Reckoner

open Scanner

/-! ## Lexemes of expressions -/

namespace Lexeme

theorem ne_endOfInput_of_mem_all {cs : List Char} {l : Lexeme} (h : l ∈ all cs) : l ≠ .token .endOfInput := by
  induction cs using textInduction with
  | blank cs hn =>
    rw [all_of_none hn] at h
    cases h
  | lexeme cs k rest hn ih =>
    rw [all_of_some hn] at h
    rcases List.mem_cons.mp h with rfl | h
    · exact ne_endOfInput_of_next? hn
    · exact ih h

end Lexeme

namespace Desk

variable {d e : Desk} {rest : List Lexeme}

/-! ## Answers of desks that are alike -/

theorem unbroken_startOver (h : d.scanner.Unbroken) : d.startOver.scanner.Unbroken :=
  unbroken_of_suffix h (suffix_reads_skipPast _ _)

theorem lexemes_startOver (h : d.scanner.Unbroken) :
    d.startOver.scanner.lexemes = Lexeme.behind .equals d.scanner.lexemes :=
  (lexemes_skipPast Symbol.isDelimiter_equals h).2

theorem startOver_alike (h : Alike d e) : Alike d.startOver e.startOver :=
  ⟨ahead_skipPast Symbol.isDelimiter_equals h.scanner, h.bindings⟩

theorem nextValue_of_alike (h : Alike d e) {r : Except Failure (Option Binary64)} {after : Desk}
    (hd : d.nextValue = (r, after)) : ∃ r' after', e.nextValue = (r', after') ∧ Matches r r' ∧ Alike after after' := by
  obtain ⟨hm, hdesk⟩ := nextValue_alike h
  rw [hd] at hm hdesk
  exact ⟨_, _, rfl, hm, hdesk⟩

theorem answers_alike (h : Alike d e) : e.answers = d.answers := by
  fun_induction answers d generalizing e with
  | case1 d v after hd ih =>
    obtain ⟨r, after', he, hm, hdesk⟩ := nextValue_of_alike h hd
    cases hm
    rw [answers_of_value he, ih hdesk]
  | case2 d line m after hd ih =>
    obtain ⟨r, after', he, hm, hdesk⟩ := nextValue_of_alike h hd
    cases hm
    rw [answers_of_mistake he, ih (startOver_alike hdesk)]
  | case3 d hvalue hmistake =>
    rcases hd : d.nextValue with ⟨r, after⟩
    obtain ⟨r', after', he, hm, -⟩ := nextValue_of_alike h hd
    cases hm with
    | ok v =>
      rcases v with _ | v
      · exact answers_of_end he
      · exact absurd hd (hvalue v after)
    | mistake line line' m => exact absurd hd (hmistake line m after)

/-- Without lexemes there are no answers. -/
theorem answers_of_no_lexemes (hu : d.scanner.Unbroken) (hl : d.scanner.lexemes = []) : d.answers = [] := by
  obtain ⟨after, hn⟩ := nextValue_of_nothing ⟨hu, .inl hl⟩
  exact answers_of_end hn

/-- An equals sign in front of a statement is passed over. -/
theorem answers_of_equals (hu : d.scanner.Unbroken) (hl : d.scanner.lexemes = .token (.symbol .equals) :: rest) :
    d.answers = answers { d with scanner := d.scanner.next.2 } := by
  rw [answers_eq, nextValue_of_equals hu hl, ← answers_eq]

/-! ## Answers of a desk that has more to read -/

/-- Nothing is left of expressions behind a mistake in them, and of a longer source what follows the
    equals sign. -/
theorem behind_follow {ls ls' : List Lexeme} (h : Follow (some rest) ls ls') :
    Lexeme.behind .equals ls = [] ∧ Lexeme.behind .equals ls' = rest := by
  cases h with
  | plain _ _ hp =>
    have hm : .token (.symbol .equals) ∉ ls := fun hm => (hp _ hm).1 rfl
    exact ⟨Lexeme.behind_of_not_mem hm, by rw [Lexeme.behind_append_of_not_mem hm, Lexeme.behind_cons_self]⟩
  | ended => exact ⟨Lexeme.behind_of_not_mem (by simp), Lexeme.behind_cons_self _ _⟩

/-- A statement of expressions at a desk, and at one that has more to read; or the source of the
    first has ended before it. Behind a mistake nothing is left there, and at the other desk what
    follows the equals sign, unless that was used up. -/
inductive NextAhead (rest : List Lexeme) (d e : Desk) : Prop
  | value (v : Binary64) (s t : Scanner) (next : d.nextValue = (.ok (some v), { d with scanner := s }))
    (next' : e.nextValue = (.ok (some v), { e with scanner := t })) (ahead : Ahead (some rest) s t)
  | mistake (line line' : Nat) (m m' : Mistake) (s t : Scanner)
    (next : d.nextValue = (.error (.mistake line m), { d with scanner := s }))
    (next' : e.nextValue = (.error (.mistake line' m'), { e with scanner := t }))
    (unbroken : s.Unbroken) (unbroken' : t.Unbroken) (left : Lexeme.behind .equals s.lexemes = [])
    (left' : Lexeme.behind .equals t.lexemes = if m.isAtEnd then Lexeme.behind .equals rest else rest)
  | ended (after : Desk) (next : d.nextValue = (.ok none, after))
    (lexemes : e.scanner.lexemes = .token (.symbol .equals) :: rest)

theorem nextAhead_of_together {a b : Except Failure Binary64 × Scanner} (h : Together (some rest) a b)
    (hd : d.nextValue = (a.1.map some, { d with scanner := a.2 }))
    (he : e.nextValue = (b.1.map some, { e with scanner := b.2 })) : NextAhead rest d e := by
  obtain ⟨ra, s⟩ := a
  obtain ⟨rb, t⟩ := b
  obtain ⟨hm, ha, hearly⟩ := h
  cases hm with
  | ok v => exact .value v s t hd he ha
  | mistake line line' m =>
    obtain ⟨hl, hl'⟩ := behind_follow ha.follow
    refine .mistake line line' m m s t hd he ha.unbroken ha.unbroken' hl ?_
    rw [hearly (by simp) line m rfl, hl']
    rfl

theorem nextAhead_of_broken {a b : Except Failure Binary64 × Scanner} (h : Calculation.Broken rest a b)
    (hd : d.nextValue = (a.1.map some, { d with scanner := a.2 }))
    (he : e.nextValue = (b.1.map some, { e with scanner := b.2 })) : NextAhead rest d e := by
  obtain ⟨line, m, ha, hend⟩ := h.answer
  obtain ⟨line', m', hb⟩ := h.answer'
  rw [ha] at hd
  rw [hb] at he
  refine .mistake line line' m m' a.2 b.2 hd he h.unbroken h.unbroken' ?_ ?_
  · rw [h.left]
    rfl
  · rw [h.left', if_pos hend]

theorem nextValue_ahead (h : Ahead (some rest) d.scanner e.scanner) (hb : e.bindings = d.bindings) :
    NextAhead rest d e := by
  obtain ⟨_, _⟩ := e
  obtain rfl := hb
  cases next_ahead h with
  | token u s t next next' ahead back plain =>
    have hp := plain (by simp)
    have hd := nextValue_of_plain next hp
    have he := nextValue_of_plain next' hp
    rcases Calculation.run_ahead d.bindings .expression .start back with hr | ⟨_, hrest, hr⟩
    · exact nextAhead_of_together hr hd he
    · obtain rfl := Option.some.inj hrest
      exact nextAhead_of_broken hr hd he
  | stray line line' c s t next next' ahead =>
    exact nextAhead_of_together (Calculation.together_stray line line' c ahead)
      (nextValue_of_error (firstToken_of_error next)) (nextValue_of_error (firstToken_of_error next'))
  | parted rest s t there next next' left left' back =>
    obtain rfl := Option.some.inj there
    have hf := firstToken_of_token next
    rw [if_neg nofun] at hf
    refine .ended _ (nextValue_of_end hf (.inr rfl)) ?_
    rw [lexemes_of_next h.unbroken' (t := .symbol .equals) (by rw [next']) nofun, next', left']

/-- A statement is cut short by the end of the source. -/
def breaksOff (d : Desk) : Bool :=
  d.answers.any fun
    | .error m => m.isAtEnd
    | .ok _ => false

theorem breaksOff_of_end {after : Desk} (h : d.nextValue = (.ok none, after)) : d.breaksOff = false := by
  rw [breaksOff, answers_of_end h]
  rfl

theorem breaksOff_of_value {v : Binary64} {after : Desk} (h : d.nextValue = (.ok (some v), after)) :
    d.breaksOff = after.breaksOff := by
  rw [breaksOff, answers_of_value h]
  rfl

theorem breaksOff_of_mistake {line : Nat} {m : Mistake} {after : Desk}
    (h : d.nextValue = (.error (.mistake line m), after)) :
    d.breaksOff = (m.isAtEnd || after.startOver.breaksOff) := by
  rw [breaksOff, answers_of_mistake h]
  rfl

/-- The desk with more to read comes to the values and mistakes of the other one, and then to those
    of what follows. -/
theorem results_ahead (h : Ahead (some rest) d.scanner e.scanner) (hb : e.bindings = d.bindings) :
    ∃ f : Desk, f.scanner.Unbroken ∧ f.bindings = d.bindings ∧
      f.scanner.lexemes = (if d.breaksOff then Lexeme.behind .equals rest else rest) ∧
        e.results = d.results ++ f.results := by
  induction hn : d.unread using Nat.strongRecOn generalizing d e with
  | ind n ih =>
    cases nextValue_ahead h hb with
    | value v s t next next' ahead =>
      have hlt := unread_nextValue_lt (d := d) (by rw [next]; exact nofun)
      rw [next, hn] at hlt
      obtain ⟨f, hu, hf, hl, hr⟩ := ih _ hlt (d := { d with scanner := s }) (e := { e with scanner := t }) ahead hb rfl
      refine ⟨f, hu, hf, ?_, ?_⟩
      · rw [hl, breaksOff_of_value next]
      · rw [results_of_value next, results_of_value next', hr, List.cons_append]
    | mistake line line' m m' s t next next' unbroken unbroken' left left' =>
      have hnone : (startOver { d with scanner := s }).answers = [] :=
        answers_of_no_lexemes (unbroken_startOver unbroken) ((lexemes_startOver unbroken).trans left)
      refine ⟨startOver { e with scanner := t }, unbroken_startOver unbroken', hb, ?_, ?_⟩
      · rw [lexemes_startOver unbroken', left', breaksOff_of_mistake next, breaksOff, hnone, List.any_nil,
          Bool.or_false]
      · have hresults : (startOver { d with scanner := s }).results = [] := by rw [results, hnone, List.map_nil]
        rw [results_of_mistake next, results_of_mistake next', hresults, List.singleton_append]
    | ended after next lexemes =>
      obtain ⟨-, hu, hl⟩ := next_of_lexemes h.unbroken' lexemes
      refine ⟨{ e with scanner := e.scanner.next.2 }, hu, hb, ?_, ?_⟩
      · rw [breaksOff_of_end next]
        exact hl
      · rw [results_of_end next, List.nil_append, results, results, answers_of_equals h.unbroken' lexemes]

end Desk

/-! ## Runs over a text -/

namespace Session

/-- A session over `text` with the variables `b`. -/
def ofText (b : Bindings) (precision : Nat) (text : String) : Session :=
  { desk := ⟨.ofPieces (Source.ofString text), b⟩, precision }

/-- The text behind the first equals sign. -/
def behindEquals (text : String) : String := .ofList (text.toList.dropWhile (· != Symbol.equals.char)).tail

variable {b : Bindings} {precision : Nat}

theorem steady_ofText (hp : precision ≤ maxPrecision) (text : String) :
    Steady (Source.reads (Source.ofString text)) (ofText b precision text) :=
  ⟨kept_of_held_none (List.suffix_refl _) rfl, hp, ⟨rfl, rfl⟩, ⟨rfl, rfl⟩⟩

theorem out_ofText (hp : precision ≤ maxPrecision) (text : String) :
    (ofText b precision text).run.2.out.text =
      printed precision ((ofText b precision text).desk.results.filterMap id) :=
  (run_answers (unbroken_ofString text) (steady_ofText hp text)).1.trans String.empty_append

theorem err_ofText (hp : precision ≤ maxPrecision) (text : String) :
    (ofText b precision text).run.2.err.lines = (ofText b precision text).desk.results.count none :=
  (run_answers (unbroken_ofString text) (steady_ofText hp text)).2.trans (Nat.zero_add _)

theorem lexemes_ofText (text : String) : (ofText b precision text).desk.scanner.lexemes = Lexeme.all text.toList :=
  lexemes_ofString text

theorem lexemes_behindEquals (text : String) :
    Lexeme.all (behindEquals text).toList = Lexeme.behind .equals (Lexeme.all text.toList) := by
  rw [behindEquals, String.toList_ofList, Lexeme.all_behind Symbol.isDelimiter_equals]

/-- The lexemes of two texts and an equals sign between them. -/
theorem lexemes_ofText_equals (s rest : String) :
    (ofText b precision (s ++ " = " ++ rest)).desk.scanner.lexemes =
      Lexeme.all s.toList ++ .token (.symbol .equals) :: Lexeme.all rest.toList := by
  have hequals : (" = " : String).toList = [' ', '=', ' '] := by decide
  have htext : (s ++ " = " ++ rest).toList = s.toList ++ ' ' :: (['='] ++ ' ' :: rest.toList) := by
    rw [String.toList_append, String.toList_append, hequals, List.append_assoc]
    rfl
  show (Scanner.ofPieces _).lexemes = _
  have hmark : Lexeme.all ['='] = [.token (.symbol .equals)] := by decide +kernel
  rw [lexemes_ofString, htext, Lexeme.all_append_blank (by decide), Lexeme.all_append_blank (by decide), hmark,
    List.singleton_append]

/-- A run over a text of expressions, an equals sign and a further text writes what runs over the
    two write, each from the same variables: a mistake costs its own statement. Only if the first
    text breaks off within an expression is the next statement lost too, up to its equals sign. -/
theorem run_start_over (hp : precision ≤ maxPrecision) (s rest : String)
    (hs : ∀ l ∈ Lexeme.all s.toList,
      l ∉ [.token (.symbol .equals), .token (.keyword .declare), .token (.keyword .exit)]) :
    let run (text : String) := (ofText b precision text).run.2
    let further := if (ofText b precision s).desk.breaksOff then behindEquals rest else rest
    (run (s ++ " = " ++ rest)).out.text = (run s).out.text ++ (run further).out.text ∧
      (run (s ++ " = " ++ rest)).err.lines = (run s).err.lines + (run further).err.lines := by
  intro run further
  have hplain : ∀ l ∈ Lexeme.all s.toList, l.Plain := by
    intro l hl
    have hm := hs l hl
    simp only [List.mem_cons, List.not_mem_nil, or_false, not_or] at hm
    exact ⟨hm.1, hm.2.1, hm.2.2, Lexeme.ne_endOfInput_of_mem_all hl⟩
  have hahead : Ahead (some (Lexeme.all rest.toList)) (ofText b precision s).desk.scanner
      (ofText b precision (s ++ " = " ++ rest)).desk.scanner := by
    refine ⟨unbroken_ofString s, unbroken_ofString _, ?_⟩
    rw [lexemes_ofText_equals, lexemes_ofText]
    exact .plain _ _ hplain
  obtain ⟨f, hu, hf, hl, hr⟩ := Desk.results_ahead hahead rfl
  have hlexemes : (ofText b precision further).desk.scanner.lexemes = f.scanner.lexemes := by
    rw [lexemes_ofText, hl]
    rcases hb : (ofText b precision s).desk.breaksOff with _ | _
    · simp only [further, hb, if_neg Bool.false_ne_true]
    · simp only [further, hb, if_true, lexemes_behindEquals]
  have halike : Desk.Alike f (ofText b precision further).desk :=
    ⟨ahead_none_iff.mpr ⟨hu, unbroken_ofString _, hlexemes⟩, hf.symm⟩
  have hfurther : (ofText b precision further).desk.results = f.results :=
    congrArg (List.map Except.toOption) (Desk.answers_alike halike)
  simp only [run, out_ofText hp, err_ofText hp, hr, hfurther, List.filterMap_append, List.count_append, printed_append,
    and_self]

/-- Behind `1 +` the equals sign is where an operand is due. It is used up as the mistake, and the
    two behind it is skipped. -/
theorem an_open_expression_takes_the_next_statement :
    let run (text : String) := (ofText .constants 6 text).run.2
    (run ("1 +" ++ " = " ++ "2")).out.text = "" ∧ (run "1 +").out.text ++ (run "2").out.text = "=2\n" ∧
      (run ("1 +" ++ " = " ++ "2")).err.text = "Error on line 1: Primary expected, found '='.\n" := by
  decide +kernel

/-- A division by zero costs nothing but itself. -/
theorem run_start_over_divided :
    let run (text : String) := (ofText .constants 6 text).run.2
    (run ("1/0 5" ++ " = " ++ "2")).out.text = "=2\n" ∧ (run ("1/0 5" ++ " = " ++ "2")).err.lines = 1 := by
  intro run
  have hs : ∀ l ∈ Lexeme.all "1/0 5".toList,
      l ∉ [.token (.symbol .equals), .token (.keyword .declare), .token (.keyword .exit)] := by decide +kernel
  have hp : (6 : Nat) ≤ maxPrecision := by decide
  obtain ⟨hout, herr⟩ := run_start_over (b := .constants) hp "1/0 5" "2" hs
  refine ⟨hout.trans ?_, herr.trans ?_⟩ <;> decide +kernel

end Session

end Reckoner
