/-
  Reckoner.Proofs.Statement — a statement has a value exactly if it is one.

  A desk reads its tokens from a scanner and puts one back. What it accepts, and the value it
  comes to, are those of the derivation trees: `statement_ok_iff` goes both ways, and says
  where the scanner stands and what is bound afterwards.
-/

import Reckoner.Proofs.Descent

namespace Reckoner

open Scanner Grammar

/-! ## Calculating what a scanner reads -/

namespace Calculation

variable {b : Bindings} {level : Level}

/-- A calculation is fed with the lexemes of the scanner, and stops at the one that ends it. -/
theorem run_of_feed {ts : List Token} {rest : List Lexeme} {t : Token} {state next : State} {s : Scanner}
    (hu : s.Unbroken) (hl : s.lexemes = ts.map .token ++ rest) (hf : feed b level state ts = .more next)
    (ht : front? rest = some t) {result : Except Mistake Binary64} {left : Bool}
    (hs : step b level next t = .stop result left) :
    run b level state s = finish result left t (s.after (ts.length + 1)) := by
  induction ts generalizing state s with
  | nil =>
    cases hf
    have hn : s.next.1 = .ok t := (next_eq_ok_iff hu).mpr (by rw [hl]; exact ht)
    rw [run_of_next (Prod.ext hn rfl), hs]
    rfl
  | cons u ts ih =>
    have hn : s.next.1 = .ok u := (next_eq_ok_iff hu).mpr (by rw [hl]; rfl)
    have hl' : s.next.2.lexemes = ts.map .token ++ rest := by rw [lexemes_next hu, hl]; rfl
    rw [feed] at hf
    rcases hstep : step b level state u with middle | ⟨r, l⟩
    · rw [hstep, andThen_more] at hf
      rw [run_of_next (Prod.ext hn rfl), hstep]
      exact ih (unbroken_next hu) hl' hf
    · rw [hstep] at hf
      cases hf

theorem ok_of_finish {result : Except Mistake Binary64} {left : Bool} {t : Token} {s : Scanner} {v : Binary64}
    (h : (finish result left t s).1 = .ok v) : result = .ok v := by
  unfold finish at h
  cases result with
  | error m =>
    dsimp only [Except.mapError] at h
    split at h
    · split at h <;> cases h
    · cases h
  | ok w =>
    dsimp only [Except.mapError] at h
    split at h
    · split at h
      · exact congrArg Except.ok (Except.ok.inj h)
      · cases h
    · exact congrArg Except.ok (Except.ok.inj h)

/-- A calculation with a value was fed with lexemes of the scanner that lead to it. -/
theorem feed_of_run {state : State} {s : Scanner} (hu : s.Unbroken) {v : Binary64}
    (h : (run b level state s).1 = .ok v) :
    ∃ ts rest t next left, s.lexemes = ts.map .token ++ rest ∧ feed b level state ts = .more next ∧
      front? rest = some t ∧ step b level next t = .stop (.ok v) left := by
  fun_induction run b level state s with
  | case1 state s f after hn => cases h
  | case2 state s t after hn next hs ih =>
    have ht : t ≠ .endOfInput := by
      rintro rfl
      exact step_endOfInput _ _ _ _ hs
    have hafter : after = s.next.2 := by rw [hn]
    have hl := lexemes_of_next hu (t := t) (by rw [hn]) ht
    rw [← hafter] at hl
    obtain ⟨ts, rest, u, last, left, he, hf, hu', hstop⟩ := ih (hafter ▸ unbroken_next hu) h
    refine ⟨t :: ts, rest, u, last, left, ?_, ?_, hu', hstop⟩
    · rw [hl, he]
      rfl
    · rw [feed, hs, andThen_more, hf]
  | case3 state s t after hn result left hs =>
    obtain rfl := ok_of_finish h
    exact ⟨[], s.lexemes, t, state, left, rfl, rfl, (next_eq_ok_iff hu).mp (by rw [hn]), hs⟩

/-- An expression among the lexemes is calculated, if the token behind it does not go on with it.
    That token is put back. -/
theorem run_expression {e : Expression} {v : Binary64} (hv : e.value b = .ok v) {s : Scanner} (hu : s.Unbroken)
    {rest : List Lexeme} (hl : s.lexemes = e.yield.map .token ++ rest) {t : Token} (ht : front? rest = some t)
    (hend : t ∉ operators) :
    run b .expression .start s = (.ok v, { s.after (e.yield.length + 1) with held := some t }) := by
  have hwhole : Whole .expression [] := .inl rfl
  obtain ⟨sum, w, hf, hw⟩ := feed_expression hv hwhole
  have hs : step b .expression (.operator sum w []) t = .stop (.ok v) true := by
    simp only [step, operatorStep_of_not_mem hend hwhole, hw, enclose]
  rw [State.start, run_of_feed hu hl hf ht hs]
  have hheld : (s.after (e.yield.length + 1)).held = none := by
    rw [after_succ]
    exact held_next _
  simp only [finish, if_true, putBack_of_held_none hheld]
  rfl

theorem expression_of_run {s : Scanner} (hu : s.Unbroken) {v : Binary64}
    (h : (run b .expression .start s).1 = .ok v) :
    ∃ (e : Expression) (rest : List Lexeme) (t : Token), s.lexemes = e.yield.map .token ++ rest ∧
      front? rest = some t ∧ t ∉ operators ∧ e.value b = .ok v := by
  obtain ⟨ts, rest, t, next, left, hl, hf, ht, hs⟩ := feed_of_run hu h
  have hstop : feed b .expression State.start (ts ++ [t]) = .stop (.ok v) left := by
    rw [feed_append, hf, andThen_more, feed, hs]
    rfl
  obtain ⟨e, w, u, us, he, hw, hend, hv⟩ :=
    expressionRead (primaryRead b .expression _) (Nat.le_refl _) (.inl rfl) hstop
  -- the calculation stops at the token behind the expression, which is therefore the last one
  have hlast : us = [] := by
    rcases List.eq_nil_or_concat us with rfl | ⟨us, x, rfl⟩
    · rfl
    · rw [List.concat_eq_append, ← List.cons_append, ← List.append_assoc] at he
      obtain ⟨rfl, -⟩ := List.append_inj' he rfl
      rw [State.start, feed_enclose hw (.inl rfl) hend] at hf
      cases hf
  subst hlast
  obtain ⟨rfl, htu⟩ := List.append_inj' he rfl
  obtain ⟨rfl, -⟩ := List.cons.inj htu
  cases hv
  exact ⟨e, rest, t, hl, ht, hend, hw⟩

end Calculation

/-! ## Statements -/

namespace Desk

/-- The lexemes of the desk begin with the yield of the tree, of value `v`; the token behind it
    does not go on with it. -/
structure Derives (d : Desk) (tree : Statement) (rest : List Lexeme) (v : Binary64) : Prop where
  lexemes : d.scanner.lexemes = tree.yield.map .token ++ rest
  ends : ∃ t, front? rest = some t ∧ t ∉ operators
  value : tree.value d.bindings = .ok v
  fresh : tree.Fresh d.bindings

/-- The desk behind the statement, of value `v`: the token that follows is put back. -/
def behind (d : Desk) (tree : Statement) (rest : List Lexeme) (v : Binary64) : Desk :=
  ⟨{ d.scanner.after (tree.yield.length + 1) with held := front? rest }, tree.after d.bindings v⟩

theorem calculate_of_value {d : Desk} (hu : d.scanner.Unbroken) {e : Expression} {v : Binary64}
    (hv : e.value d.bindings = .ok v) {rest : List Lexeme} (hl : d.scanner.lexemes = e.yield.map .token ++ rest)
    {t : Token} (hf : front? rest = some t) (hend : t ∉ operators) :
    d.calculate .expression =
      (.ok v, { d with scanner := { d.scanner.after (e.yield.length + 1) with held := some t } }) := by
  rw [calculate_eq_run, Calculation.run_expression hv hu hl hf hend]

theorem value_of_calculate {d : Desk} (hu : d.scanner.Unbroken) {v : Binary64}
    (h : (d.calculate .expression).1 = .ok v) :
    ∃ (e : Expression) (rest : List Lexeme), d.scanner.lexemes = e.yield.map .token ++ rest ∧
      (∃ t, front? rest = some t ∧ t ∉ operators) ∧ e.value d.bindings = .ok v := by
  rw [calculate_eq_run] at h
  obtain ⟨e, rest, t, hl, hf, hend, hv⟩ := Calculation.expression_of_run hu h
  exact ⟨e, rest, hl, ⟨t, hf, hend⟩, hv⟩

/-- A scanner whose first lexeme is a token answers with it. -/
theorem next_of_lexemes {s : Scanner} (hu : s.Unbroken) {t : Token} {ls : List Lexeme}
    (hl : s.lexemes = .token t :: ls) :
    s.next = (.ok t, s.next.2) ∧ s.next.2.Unbroken ∧ s.next.2.lexemes = ls := by
  refine ⟨Prod.ext ((next_eq_ok_iff hu).mpr ?_) rfl, unbroken_next hu, ?_⟩
  · rw [hl]
    rfl
  · rw [lexemes_next hu, hl]
    rfl

theorem statement_of_derives {d : Desk} (hu : d.scanner.Unbroken) {tree : Statement} {rest : List Lexeme}
    {v : Binary64}
    (h : d.Derives tree rest v) : d.statement = (.ok v, d.behind tree rest v) := by
  obtain ⟨hl, ⟨u, hf, hend⟩, hv, hfresh⟩ := h
  cases tree with
  | expression e =>
    obtain ⟨t, ts, hy, ht, -⟩ := e.first
    have hl' : d.scanner.lexemes = .token t :: (ts.map .token ++ rest) := by
      rw [hl, Statement.yield, hy]
      rfl
    obtain ⟨hn, hu', hls⟩ := next_of_lexemes hu hl'
    have hheld := held_next d.scanner
    have hback : ({ d.scanner.next.2 with held := some t } : Scanner).lexemes = e.yield.map .token ++ rest := by
      rw [lexemes_hold hheld, hls, hy]
      rfl
    have hc := calculate_of_value (d := { d with scanner := { d.scanner.next.2 with held := some t } })
      (unbroken_hold hu' t) hv hback hf hend
    -- the token that was put back is read twice
    rw [statement_of_token hn ht, hc, behind, hf, Scanner.after, next_hold hheld]
    rfl
  | declaration name e =>
    obtain ⟨hn₁, hu₁, hl₁⟩ := next_of_lexemes hu hl
    obtain ⟨hn₂, hu₂, hl₂⟩ := next_of_lexemes hu₁ hl₁
    obtain ⟨hn₃, hu₃, hl₃⟩ := next_of_lexemes hu₂ hl₂
    have hfresh : d.bindings.isBound name = false := hfresh
    have hc := calculate_of_value (d := { d with scanner := d.scanner.next.2.next.2.next.2 }) hu₃ hv hl₃ hf hend
    rw [statement_of_declare hn₁, declaration_of_name hn₂ hn₃, bindTo_of_ok hc, hfresh, behind, hf]
    rfl

theorem of_bindTo {d : Desk} (hu : d.scanner.Unbroken) {name : String} {v : Binary64}
    (h : (d.bindTo name).1 = .ok v) :
    ∃ (e : Expression) (rest : List Lexeme), d.scanner.lexemes = e.yield.map .token ++ rest ∧
      (∃ t, front? rest = some t ∧ t ∉ operators) ∧ e.value d.bindings = .ok v ∧
        d.bindings.isBound name = false := by
  rcases hc : d.calculate .expression with ⟨f | w, after⟩
  · rw [bindTo_of_error hc] at h
    cases h
  · obtain ⟨e, rest, hl, hend, hv⟩ := value_of_calculate hu (congrArg Prod.fst hc)
    rw [bindTo_of_ok hc] at h
    rcases hb : d.bindings.isBound name with _ | _
    · rw [hb] at h
      obtain rfl := Except.ok.inj h
      exact ⟨e, rest, hl, hend, hv, rfl⟩
    · rw [hb] at h
      cases h

/-- A declaration has a tree behind its name and equals sign. -/
theorem of_declaration {d : Desk} (hu : d.scanner.Unbroken) {v : Binary64} (h : d.declaration.1 = .ok v) :
    ∃ name, ∃ (e : Expression) (rest : List Lexeme),
      d.scanner.lexemes = .token (.name name) :: .token (.symbol .equals) :: (e.yield.map .token ++ rest) ∧
        (∃ t, front? rest = some t ∧ t ∉ operators) ∧ e.value d.bindings = .ok v ∧
          d.bindings.isBound name = false := by
  obtain ⟨name, s, s', hn, hn'⟩ := declaration_of_ok h
  rw [declaration_of_name hn hn'] at h
  have hl := lexemes_of_next hu (t := .name name) (by rw [hn]) nofun
  have hs := unbroken_next hu
  rw [hn] at hl hs
  have hl' := lexemes_of_next hs (t := .symbol .equals) (by rw [hn']) nofun
  have hs' := unbroken_next hs
  rw [hn'] at hl' hs'
  obtain ⟨e, rest, he, hend, hv, hb⟩ := of_bindTo (d := { d with scanner := s' }) hs' h
  exact ⟨name, e, rest, by rw [hl, hl', he], hend, hv, hb⟩

theorem derives_of_statement {d : Desk} (hu : d.scanner.Unbroken) {v : Binary64} (h : d.statement.1 = .ok v) :
    ∃ tree rest, d.Derives tree rest v := by
  rcases hn : d.scanner.next with ⟨f | t, s⟩
  · rw [statement_of_error hn] at h
    cases h
  have hs := unbroken_next hu
  have hheld := held_next d.scanner
  rw [hn] at hs hheld
  by_cases ht : t = .keyword .declare
  · subst ht
    rw [statement_of_declare hn] at h
    have hl := lexemes_of_next hu (t := .keyword .declare) (by rw [hn]) nofun
    rw [hn] at hl
    obtain ⟨name, e, rest, he, hend, hv, hb⟩ := of_declaration (d := { d with scanner := s }) hs h
    exact ⟨.declaration name e, rest, by rw [hl, he]; rfl, hend, hv, hb⟩
  · rw [statement_of_token hn ht] at h
    obtain ⟨e, rest, he, hend, hv⟩ := value_of_calculate (d := { d with scanner := { s with held := some t } })
      (unbroken_hold hs t) h
    -- the token put back is the first of the expression, so it was a lexeme, not the end
    obtain ⟨t', ts, hy, -, ht'⟩ := e.first
    rw [lexemes_hold hheld, hy] at he
    obtain ⟨h₁, h₂⟩ := List.cons.inj he
    obtain rfl := Lexeme.token.inj h₁
    have hl := lexemes_of_next hu (t := t) (by rw [hn]) ht'
    rw [hn] at hl
    exact ⟨.expression e, rest, by rw [hl, h₂, Statement.yield, hy]; rfl, hend, hv, trivial⟩

theorem lexemes_after {s : Scanner} (hu : s.Unbroken) (count : Nat) :
    (s.after count).lexemes = s.lexemes.drop count := by
  induction count generalizing s with
  | zero => rfl
  | succ count ih => rw [after, ih (unbroken_next hu), lexemes_next hu, List.drop_tail]

/-- A statement has the value `v` exactly if the lexemes to come begin with one of that value, by
    its derivation tree, and with a token that does not go on with it. It then waits to be read
    again, what follows it is unread, and nothing is bound but the name of a declaration. -/
theorem statement_ok_iff {d : Desk} (h : d.scanner.Unbroken) (v : Binary64) :
    (d.statement.1 = .ok v ↔ ∃ tree rest, d.Derives tree rest v) ∧
      ∀ tree rest, d.Derives tree rest v →
        d.statement.2.scanner.held = front? rest ∧
          ({ d.statement.2.scanner with held := none } : Scanner).lexemes = rest.tail ∧
          d.statement.2.bindings = tree.after d.bindings v := by
  refine ⟨⟨derives_of_statement h, ?_⟩, ?_⟩
  · rintro ⟨tree, rest, ht⟩
    rw [statement_of_derives h ht]
  · intro tree rest ht
    rw [statement_of_derives h ht]
    refine ⟨rfl, ?_, rfl⟩
    have hheld : (d.scanner.after (tree.yield.length + 1)).held = none := by
      rw [after_succ]
      exact held_next _
    have hrest : (d.scanner.after (tree.yield.length + 1)).lexemes = rest.tail := by
      rw [lexemes_after h, ht.lexemes, ← List.drop_drop, List.drop_left' (by simp), List.drop_one]
    rw [← hrest, behind]
    generalize d.scanner.after (tree.yield.length + 1) = s at hheld
    cases s
    obtain rfl := hheld
    rfl

/-- `#y = 7 - 2 - 3` has the value two, and the equals sign behind it waits. -/
theorem statement_leftmost :
    let d := Desk.ofPieces (Source.ofString "#y = 7 - 2 - 3 =")
    let number (n : Nat) := (⟨n, 0⟩ : Decimal).toBinary64
    d.scanner.Unbroken ∧ d.statement.1 = .ok (number 2) ∧ d.statement.2.scanner.held = some (.symbol .equals) ∧
      d.statement.2.bindings = ⟨Bindings.constants.toList ++ [⟨"y", number 2⟩]⟩ := by
  intro d number
  let term (n : Nat) : Term := .of (.number (number n)) .none
  have hu : d.scanner.Unbroken := unbroken_ofPieces ["#y = 7 - 2 - 3 =".toUTF8.toList]
  let tree : Statement := .declaration "y" (.of (term 7) (.more .minus (term 2) (.more .minus (term 3) .none)))
  have h : d.Derives tree [.token (.symbol .equals)] (number 2) := by
    refine ⟨by decide +kernel, ⟨.symbol .equals, rfl, by decide⟩, ?_, ?_⟩
    · show Except.ok (((number 7).sub (number 2)).sub (number 3)) = _
      exact congrArg Except.ok (by decide +kernel)
    · show Bindings.isBound _ "y" = false
      decide +kernel
  have hs := statement_ok_iff hu (number 2)
  exact ⟨hu, hs.1.mpr ⟨tree, _, h⟩, (hs.2 tree _ h).1, (hs.2 tree _ h).2.2⟩

end Desk

end Reckoner
