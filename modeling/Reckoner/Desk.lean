/-
  Reckoner.Desk — statements, one after another.

  A desk is a scanner and the variables declared so far. A statement is a declaration,
  `let name = expression`, or an expression; its value is that of the expression. The
  expression of a declaration is calculated before its name is bound. Equals signs between
  statements are passed over.

  - `bindTo_of_ok`, `statement_of_token`, `nextValue_of_token`: each operation, case by case.
  - `unread_nextValue_lt`: a statement that has a value or a mistake leaves less to read.
-/

import Reckoner.Calculation.Production

namespace Reckoner

structure Desk where
  scanner : Scanner
  bindings : Bindings
  deriving DecidableEq

namespace Desk

/-- A desk with the constants declared. -/
def ofPieces (pieces : List Piece) : Desk := ⟨.ofPieces pieces, .constants⟩

def unread (d : Desk) : Nat := d.scanner.unread

def calculate (level : Calculation.Level) (d : Desk) : Except Failure Binary64 × Desk :=
  let r := Production.ofLevel level d.bindings d.scanner
  (r.answer, { d with scanner := r.scanner })

/-- Binds `name` to the value of the expression that follows. -/
def bindTo (name : String) (d : Desk) : Except Failure Binary64 × Desk :=
  match d.calculate .expression with
  | (.error f, d) => (.error f, d)
  | (.ok v, d) =>
    match d.bindings.declare name v with
    | .ok bindings => (.ok v, { d with bindings })
    | .error m => (.error (.mistake d.scanner.line m), d)

/-- A declaration whose `let` has been read. -/
def declaration (d : Desk) : Except Failure Binary64 × Desk :=
  match d.scanner.next with
  | (.error f, scanner) => (.error f, { d with scanner })
  | (.ok (.name name), scanner) =>
    match scanner.next with
    | (.error f, scanner) => (.error f, { d with scanner })
    | (.ok t, scanner) =>
      if t = .symbol .equals then bindTo name { d with scanner }
      else (.error (.mistake scanner.line (.equalsMissing name)), { d with scanner })
  | (.ok .endOfInput, scanner) => (.error (.mistake scanner.line .inputEnded), { d with scanner })
  | (.ok t, scanner) => (.error (.mistake scanner.line (.nameExpected t)), { d with scanner })

/-- The expression that begins with `t`. -/
def expressionAt (t : Token) (d : Desk) : Except Failure Binary64 × Desk :=
  match d.scanner.putBack t with
  | (.error f, scanner) => (.error f, { d with scanner })
  | (.ok (), scanner) => calculate .expression { d with scanner }

def statement (d : Desk) : Except Failure Binary64 × Desk :=
  match d.scanner.next with
  | (.error f, scanner) => (.error f, { d with scanner })
  | (.ok t, scanner) =>
    if t = .keyword .declare then declaration { d with scanner } else expressionAt t { d with scanner }

/-- The next token that is no equals sign. -/
def firstToken (s : Scanner) : Except Failure Token × Scanner :=
  match _h : s.next with
  | (.error f, s) => (.error f, s)
  | (.ok t, after) => if _ht : t = .symbol .equals then firstToken after else (.ok t, after)
  termination_by s.unread
  decreasing_by
    have := Scanner.unread_next_lt (s := s) (by rw [_h]; exact _ht ▸ nofun)
    rwa [_h] at this

/-- The value of the next statement; none at `exit` and at the end of the input. -/
def nextValue (d : Desk) : Except Failure (Option Binary64) × Desk :=
  match firstToken d.scanner with
  | (.error f, scanner) => (.error f, { d with scanner })
  | (.ok t, scanner) =>
    if t = .keyword .exit ∨ t = .endOfInput then (.ok none, { d with scanner })
    else
      match scanner.putBack t with
      | (.error f, scanner) => (.error f, { d with scanner })
      | (.ok (), scanner) =>
        match statement { d with scanner } with
        | (.error f, d) => (.error f, d)
        | (.ok v, d) => (.ok (some v), d)

/-! ## Case by case -/

section

variable {d after : Desk} {s s' : Scanner} {t : Token} {name : String} {f : Failure} {v : Binary64}

theorem bindTo_of_error (h : d.calculate .expression = (.error f, after)) : d.bindTo name = (.error f, after) := by
  rw [bindTo, h]

/-- The name is looked for only when the value is known. -/
theorem bindTo_of_ok (h : d.calculate .expression = (.ok v, after)) :
    d.bindTo name =
      if d.bindings.isBound name then (.error (.mistake after.scanner.line (.declaredTwice name)), after)
      else (.ok v, { after with bindings := ⟨d.bindings.toList ++ [⟨name, v⟩]⟩ }) := by
  have hb : after.bindings = d.bindings := (congrArg (·.2.bindings) h).symm
  rw [bindTo, h]
  dsimp only
  rw [hb, Bindings.declare]
  cases d.bindings.isBound name <;> rfl

theorem declaration_of_name (h : d.scanner.next = (.ok (.name name), s))
    (h' : s.next = (.ok (.symbol .equals), s')) :
    d.declaration = bindTo name { d with scanner := s' } := by
  rw [declaration, h]
  dsimp only
  rw [h']
  rfl

/-- A declaration with a value has a name and an equals sign behind it. -/
theorem declaration_of_ok (h : d.declaration.1 = .ok v) :
    ∃ name s s', d.scanner.next = (.ok (.name name), s) ∧ s.next = (.ok (.symbol .equals), s') := by
  unfold declaration at h
  split at h
  · cases h
  · rename_i name s hn
    split at h
    · cases h
    · rename_i t s' hn'
      by_cases ht : t = .symbol .equals
      · subst ht
        exact ⟨name, s, s', hn, hn'⟩
      · rw [if_neg ht] at h
        cases h
  · cases h
  · cases h

theorem statement_of_error (h : d.scanner.next = (.error f, s)) :
    d.statement = (.error f, { d with scanner := s }) := by
  rw [statement, h]

theorem statement_of_declare (h : d.scanner.next = (.ok (.keyword .declare), s)) :
    d.statement = declaration { d with scanner := s } := by
  rw [statement, h]
  rfl

theorem statement_of_token (h : d.scanner.next = (.ok t, s)) (ht : t ≠ .keyword .declare) :
    d.statement = calculate .expression { d with scanner := { s with held := some t } } := by
  have hheld := Scanner.held_next d.scanner
  rw [h] at hheld
  rw [statement, h]
  dsimp only
  rw [if_neg ht, expressionAt, Scanner.putBack_of_held_none hheld]

end

/-! ## What is left to read -/

theorem unread_calculate_le (level : Calculation.Level) (d : Desk) : (d.calculate level).2.unread ≤ d.unread :=
  Production.Result.unread_le _

theorem unread_bindTo_le (name : String) (d : Desk) : (d.bindTo name).2.unread ≤ d.unread := by
  have h := unread_calculate_le .expression d
  unfold bindTo
  split
  · rename_i hc
    rwa [hc] at h
  · rename_i hc
    rw [hc] at h
    split <;> exact h

theorem unread_declaration_le (d : Desk) : d.declaration.2.unread ≤ d.unread := by
  have h := Scanner.unread_next_le d.scanner
  unfold declaration
  split
  · rename_i hn
    rwa [hn] at h
  · rename_i name scanner hn
    rw [hn] at h
    have h' := Scanner.unread_next_le scanner
    split
    · rename_i hn'
      rw [hn'] at h'
      exact Nat.le_trans h' h
    · rename_i hn'
      rw [hn'] at h'
      split
      · exact Nat.le_trans (unread_bindTo_le _ _) (Nat.le_trans h' h)
      · exact Nat.le_trans h' h
  · rename_i hn
    rwa [hn] at h
  · rename_i hn
    rwa [hn] at h

/-- A statement reads the token it begins with. -/
theorem unread_statement_lt {d : Desk} (h : Scanner.Took d.scanner.next.1) : d.statement.2.unread < d.unread := by
  have hlt := Scanner.unread_next_lt h
  rcases hn : d.scanner.next with ⟨f | t, s⟩
  · rw [hn] at hlt
    rw [statement_of_error hn]
    exact hlt
  rw [hn] at hlt
  by_cases hd : t = .keyword .declare
  · subst hd
    rw [statement_of_declare hn]
    exact Nat.lt_of_le_of_lt (unread_declaration_le _) hlt
  · rw [statement_of_token hn hd]
    have ht : t ≠ .endOfInput := by
      rw [hn] at h
      exact h
    have hrun : (Production.expression d.bindings { s with held := some t }).scanner.unread < _ :=
      Production.unread_expression_lt ht
    have hput : ({ s with held := some t } : Scanner).unread ≤ d.unread := by
      have hle := Scanner.unread_hold_next_le (s := d.scanner) (t := t) (by rw [hn])
      rwa [hn] at hle
    exact Nat.lt_of_lt_of_le hrun hput

theorem unread_firstToken_le (s : Scanner) : (firstToken s).2.unread ≤ s.unread := by
  fun_induction firstToken s with
  | case1 s f after h =>
    have := Scanner.unread_next_le s
    rwa [h] at this
  | case2 s after h ih =>
    have := Scanner.unread_next_le s
    rw [h] at this
    exact Nat.le_trans ih this
  | case3 s t after h =>
    have := Scanner.unread_next_le s
    rwa [h] at this

theorem unread_firstToken_lt {s : Scanner} (h : Scanner.Took (firstToken s).1) :
    (firstToken s).2.unread < s.unread := by
  fun_induction firstToken s with
  | case1 s f after hn =>
    have := Scanner.unread_next_lt (s := s) (by rw [hn]; exact h)
    rwa [hn] at this
  | case2 s after hn ih =>
    have := Scanner.unread_next_le s
    rw [hn] at this
    exact Nat.lt_of_lt_of_le (ih h) this
  | case3 s t after hn =>
    have := Scanner.unread_next_lt (s := s) (by rw [hn]; exact h)
    rwa [hn] at this

theorem held_firstToken (s : Scanner) : (firstToken s).2.held = none := by
  fun_induction firstToken s with
  | case1 s f after h =>
    have := Scanner.held_next s
    rwa [h] at this
  | case2 s after h ih => exact ih
  | case3 s t after h =>
    have := Scanner.held_next s
    rwa [h] at this

theorem firstToken_of_error {s after : Scanner} {f : Failure} (h : s.next = (.error f, after)) :
    firstToken s = (.error f, after) := by
  rw [firstToken]
  split
  · rename_i hn
    rw [h] at hn
    exact hn.symm
  · rename_i hn
    rw [h] at hn
    cases hn

theorem firstToken_of_token {s after : Scanner} {t : Token} (h : s.next = (.ok t, after)) :
    firstToken s = if t = .symbol .equals then firstToken after else (.ok t, after) := by
  rw [firstToken]
  split
  · rename_i hn
    rw [h] at hn
    cases hn
  · rename_i hn
    rw [h] at hn
    cases hn
    rfl

theorem nextValue_of_error {d : Desk} {s : Scanner} {f : Failure} (h : firstToken d.scanner = (.error f, s)) :
    d.nextValue = (.error f, { d with scanner := s }) := by
  rw [nextValue, h]

theorem nextValue_of_end {d : Desk} {s : Scanner} {t : Token} (h : firstToken d.scanner = (.ok t, s))
    (hq : t = .keyword .exit ∨ t = .endOfInput) : d.nextValue = (.ok none, { d with scanner := s }) := by
  rw [nextValue, h]
  dsimp only
  rw [if_pos hq]

/-- The first token is put back and the statement read from it. -/
theorem nextValue_of_token {d : Desk} {s : Scanner} {t : Token} (h : firstToken d.scanner = (.ok t, s))
    (hq : ¬ (t = .keyword .exit ∨ t = .endOfInput)) :
    let a := statement { d with scanner := { s with held := some t } }
    d.nextValue = (a.1.map some, a.2) := by
  have hheld := held_firstToken d.scanner
  rw [h] at hheld
  intro a
  rw [nextValue, h]
  dsimp only
  rw [if_neg hq, Scanner.putBack_of_held_none hheld]
  show (match a with | (.error f, d) => _ | (.ok v, d) => _) = _
  rcases a with ⟨f | v, after⟩ <;> rfl

/-- A statement was read, and it has a value or a mistake. -/
def Progress : Except Failure (Option Binary64) → Prop
  | .ok v => v ≠ none
  | .error f => f.isRecoverable = true

instance (r : Except Failure (Option Binary64)) : Decidable (Progress r) :=
  match r with
  | .ok v => inferInstanceAs (Decidable (v ≠ none))
  | .error f => inferInstanceAs (Decidable (f.isRecoverable = true))

theorem unread_statement_hold_lt {d : Desk} {s : Scanner} {t : Token} (h : firstToken d.scanner = (.ok t, s))
    (ht : t ≠ .endOfInput) : (statement { d with scanner := { s with held := some t } }).2.unread < d.unread := by
  have hheld := held_firstToken d.scanner
  have hlt := unread_firstToken_lt (s := d.scanner) (by rw [h]; exact ht)
  rw [h] at hheld hlt
  have hs := unread_statement_lt (d := { d with scanner := { s with held := some t } }) ht
  have hput : ({ s with held := some t } : Scanner).unread ≤ d.unread := by
    have hle := Scanner.heldSize_le t
    rw [Scanner.unread_hold hheld]
    exact Nat.le_trans (Nat.add_le_add_right hle _) (Nat.add_comm 1 _ ▸ hlt)
  exact Nat.lt_of_lt_of_le hs hput

theorem unread_nextValue_lt {d : Desk} (h : Progress d.nextValue.1) : d.nextValue.2.unread < d.unread := by
  rcases hf : firstToken d.scanner with ⟨f | t, s⟩
  · rw [nextValue_of_error hf] at h ⊢
    have hlt := unread_firstToken_lt (s := d.scanner) (by rw [hf]; exact h)
    rwa [hf] at hlt
  by_cases hq : t = .keyword .exit ∨ t = .endOfInput
  · rw [nextValue_of_end hf hq] at h
    exact absurd rfl h
  · rw [nextValue_of_token hf hq]
    exact unread_statement_hold_lt hf fun he => hq (.inr he)

theorem unread_nextValue_le (d : Desk) : d.nextValue.2.unread ≤ d.unread := by
  have hle := unread_firstToken_le d.scanner
  rcases hf : firstToken d.scanner with ⟨f | t, s⟩
  · rw [hf] at hle
    rw [nextValue_of_error hf]
    exact hle
  by_cases hq : t = .keyword .exit ∨ t = .endOfInput
  · rw [hf] at hle
    rw [nextValue_of_end hf hq]
    exact hle
  · rw [nextValue_of_token hf hq]
    exact Nat.le_of_lt (unread_statement_hold_lt hf fun he => hq (.inr he))

/-! ## Whole sources -/

/-- The values of all statements up to `exit` or the end of the input, or what went wrong
    first. -/
def values (d : Desk) : Except Failure (List Binary64) :=
  match _h : d.nextValue with
  | (.error f, _) => .error f
  | (.ok none, _) => .ok []
  | (.ok (some v), after) => (values after).map (v :: ·)
  termination_by d.unread
  decreasing_by
    have := unread_nextValue_lt (d := d) (by rw [_h]; exact nofun)
    rwa [_h] at this

end Desk

/-- The values of the statements in `text`, or what went wrong first. -/
def evaluate (text : String) : Except Failure (List Binary64) := (Desk.ofPieces (Source.ofString text)).values

end Reckoner
