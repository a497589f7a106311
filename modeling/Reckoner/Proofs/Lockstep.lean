/-
  Reckoner.Proofs.Lockstep — two scanners that read the same.

  A scanner answers by its lexemes alone: how they are spelled, what blanks are between them and
  how they are spread over lines shows only in the line a mistake is noticed on. So two scanners
  with the same lexemes stay in step; and if one of them has an equals sign and more behind the
  lexemes of the other, they do so up to there.

  - `next_ahead`: the next token of both is the same, up to the end of the shorter source.
  - `run_ahead`: a calculation on both comes to the same, unless the shorter source ends within it.
-/

import Reckoner.Proofs.Outcome
import Reckoner.Proofs.Statement

namespace Reckoner

open Scanner

/-- The same answer, but for the line a mistake was noticed on. -/
inductive Matches {α : Type} : Except Failure α → Except Failure α → Prop
  | ok (v : α) : Matches (.ok v) (.ok v)
  | mistake (line line' : Nat) (m : Mistake) : Matches (.error (.mistake line m)) (.error (.mistake line' m))

theorem matches_mapError {α : Type} (r : Except Mistake α) (line line' : Nat) :
    Matches (r.mapError (.mistake line)) (r.mapError (.mistake line')) := by
  cases r with
  | ok v => exact .ok v
  | error m => exact .mistake line line' m

/-! ## Lexemes of expressions -/

/-- What may stand in expressions: neither an equals sign nor the keyword of a declaration or an
    exit, nor the end of the input. -/
def Lexeme.Plain (l : Lexeme) : Prop :=
  l ≠ .token (.symbol .equals) ∧ l ≠ .token (.keyword .declare) ∧ l ≠ .token (.keyword .exit) ∧
    l ≠ .token .endOfInput

/-- A mistake that only the end of the input makes. -/
def Mistake.isAtEnd : Mistake → Bool
  | inputEnded => true
  | exponentNoNumber .endOfInput => true
  | _ => false

/-! ## In step -/

/-- Lexemes and those that another scanner has: the same; or, if `more` is given, those of
    expressions, which an equals sign and `more` follow. The end of the input may wait to be read
    again where the equals sign stands. -/
inductive Follow : Option (List Lexeme) → List Lexeme → List Lexeme → Prop
  | same (ls : List Lexeme) : Follow none ls ls
  | plain (rest ls : List Lexeme) (h : ∀ l ∈ ls, l.Plain) :
    Follow (some rest) ls (ls ++ .token (.symbol .equals) :: rest)
  | ended (rest : List Lexeme) : Follow (some rest) [.token .endOfInput] (.token (.symbol .equals) :: rest)

namespace Scanner

variable {more : Option (List Lexeme)} {rest : List Lexeme} {s t : Scanner}

/-- `t` reads what `s` reads, and then what follows. -/
structure Ahead (more : Option (List Lexeme)) (s t : Scanner) : Prop where
  unbroken : s.Unbroken
  unbroken' : t.Unbroken
  follow : Follow more s.lexemes t.lexemes

theorem ahead_none_iff : Ahead none s t ↔ s.Unbroken ∧ t.Unbroken ∧ t.lexemes = s.lexemes := by
  constructor
  · rintro ⟨hs, ht, hf⟩
    generalize s.lexemes = a at hf
    generalize t.lexemes = b at hf
    cases hf
    exact ⟨hs, ht, rfl⟩
  · rintro ⟨hs, ht, hl⟩
    exact ⟨hs, ht, hl ▸ .same _⟩

/-- A token that was read by both may be put back by both. -/
theorem ahead_none_hold (h : Ahead none s t) (hs : s.held = none) (ht : t.held = none) (u : Token) :
    Ahead none { s with held := some u } { t with held := some u } := by
  obtain ⟨hu, hu', hl⟩ := ahead_none_iff.mp h
  refine ahead_none_iff.mpr ⟨hu, hu', ?_⟩
  rw [lexemes_hold hs, lexemes_hold ht, hl]

/-- Two answers in step. -/
structure Together {α : Type} (more : Option (List Lexeme)) (a b : Except Failure α × Scanner) : Prop where
  answer : Matches a.1 b.1
  ahead : Ahead more a.2 b.2
  early : more ≠ none → ∀ line m, a.1 = .error (.mistake line m) → m.isAtEnd = false

/-- The next token of both, in step, so that both may put it back; or the shorter source has ended. -/
inductive NextAhead (more : Option (List Lexeme)) (s t : Scanner) : Prop
  | token (u : Token) (s' t' : Scanner) (next : s.next = (.ok u, s')) (next' : t.next = (.ok u, t'))
    (ahead : Ahead more s' t') (back : Ahead more { s' with held := some u } { t' with held := some u })
    (plain : more ≠ none → (Lexeme.token u).Plain)
  | stray (line line' : Nat) (c : Char) (s' t' : Scanner)
    (next : s.next = (.error (.mistake line (.strayCharacter c)), s'))
    (next' : t.next = (.error (.mistake line' (.strayCharacter c)), t')) (ahead : Ahead more s' t')
  | parted (rest : List Lexeme) (s' t' : Scanner) (there : more = some rest)
    (next : s.next = (.ok .endOfInput, s')) (next' : t.next = (.ok (.symbol .equals), t'))
    (left : s'.lexemes = []) (left' : t'.lexemes = rest)
    (back : Ahead (some rest) { s' with held := some .endOfInput } { t' with held := some (.symbol .equals) })

theorem next_parted (hu : s.Unbroken) (hu' : t.Unbroken) (hl : s.lexemes = [] ∨ s.lexemes = [.token .endOfInput])
    (hl' : t.lexemes = .token (.symbol .equals) :: rest) : NextAhead (some rest) s t := by
  have hs : s.next.1 = .ok .endOfInput ∧ s.next.2.lexemes = [] := by
    have hs := next_lexemes hu
    rcases hl with hl | hl <;> (rw [hl] at hs; exact hs)
  have ht := next_lexemes hu'
  rw [hl'] at ht
  refine .parted rest _ _ rfl (Prod.ext hs.1 rfl) (Prod.ext ht.1 rfl) hs.2 ht.2
    ⟨unbroken_next hu, unbroken_next hu', ?_⟩
  rw [lexemes_hold (held_next s), lexemes_hold (held_next t), hs.2, ht.2]
  exact .ended rest

theorem next_ahead_cons {l : Lexeme} {ls ls' : List Lexeme} (hu : s.Unbroken) (hu' : t.Unbroken)
    (hl : s.lexemes = l :: ls) (hl' : t.lexemes = l :: ls') (hp : more ≠ none → l.Plain)
    (hf : Follow more ls ls') (hf' : Follow more (l :: ls) (l :: ls')) : NextAhead more s t := by
  have hs := next_lexemes hu
  have ht := next_lexemes hu'
  rw [hl] at hs
  rw [hl'] at ht
  have ha : Ahead more s.next.2 t.next.2 := ⟨unbroken_next hu, unbroken_next hu', by rwa [hs.2, ht.2]⟩
  cases l with
  | token u =>
    refine .token u _ _ (Prod.ext hs.1 rfl) (Prod.ext ht.1 rfl) ha ⟨ha.unbroken, ha.unbroken', ?_⟩ hp
    rwa [lexemes_hold (held_next s), lexemes_hold (held_next t), hs.2, ht.2]
  | stray c => exact .stray _ _ c _ _ (Prod.ext hs.1 rfl) (Prod.ext ht.1 rfl) ha

theorem next_ahead (h : Ahead more s t) : NextAhead more s t := by
  obtain ⟨hu, hu', hf⟩ := h
  generalize hl : s.lexemes = ls at hf
  generalize hl' : t.lexemes = ls' at hf
  cases hf with
  | same =>
    cases ls with
    | nil =>
      have hs := next_lexemes hu
      have ht := next_lexemes hu'
      rw [hl] at hs
      rw [hl'] at ht
      refine .token .endOfInput _ _ (Prod.ext hs.1 rfl) (Prod.ext ht.1 rfl)
        ?_ (ahead_none_hold ?_ (held_next s) (held_next t) _) fun hn => absurd rfl hn <;>
        exact ahead_none_iff.mpr ⟨unbroken_next hu, unbroken_next hu', ht.2.trans hs.2.symm⟩
    | cons l ls => exact next_ahead_cons hu hu' hl hl' (fun hn => absurd rfl hn) (.same ls) (.same _)
  | plain rest _ hp =>
    cases ls with
    | nil => exact next_parted hu hu' (.inl hl) hl'
    | cons l ls =>
      have hls : ∀ k ∈ ls, k.Plain := fun k hk => hp k (List.mem_cons_of_mem _ hk)
      exact next_ahead_cons hu hu' hl hl' (fun _ => hp l List.mem_cons_self) (.plain rest ls hls) (.plain rest _ hp)
  | ended rest => exact next_parted hu hu' (.inr hl) hl'

end Scanner

/-! ## Calculations -/

namespace Calculation

variable {b : Bindings} {level : Level} {more : Option (List Lexeme)} {rest : List Lexeme} {s t : Scanner}

/-- Two steps that end a calculation alike, at the end of the input and at an equals sign: the token
    is left, or is a mistake that has another name at the end. -/
inductive EndsAlike : Step → Step → Prop
  | left (r : Except Mistake Binary64) (h : ∀ m, r = .error m → m.isAtEnd = false) :
    EndsAlike (.stop r true) (.stop r true)
  | broken (m m' : Mistake) (h : m.isAtEnd = true) : EndsAlike (.fail m) (.fail m')

theorem endsAlike_ok (v : Binary64) : EndsAlike (.stop (.ok v) true) (.stop (.ok v) true) := by
  refine .left _ ?_
  intro m hm
  cases hm

theorem endsAlike_expect {w : Symbol} (hw : w ≠ .equals) (next next' : Step) :
    EndsAlike (expect w .endOfInput next) (expect w (.symbol .equals) next') := by
  have he : Token.symbol .equals ≠ .symbol w := fun h => hw (Token.symbol.inj h).symm
  rw [expect_endOfInput, expect, if_neg he]
  exact .broken _ _ rfl

theorem endsAlike_enclose (v : Binary64) (outer : Enclosing) :
    EndsAlike (enclose level v .endOfInput outer) (enclose level v (.symbol .equals) outer) := by
  unfold enclose
  split
  · exact endsAlike_ok v
  · exact endsAlike_expect (by decide) _ _
  · split
    · rename_i m hm
      obtain rfl := eq_of_squareRoot hm
      refine .left _ ?_
      intro m hm
      obtain rfl := Except.error.inj hm
      rfl
    · exact endsAlike_expect (by decide) _ _
  · exact endsAlike_expect (by decide) _ _

variable (b level) in
/-- The end of the input and an equals sign end a calculation alike, in every state. -/
theorem endsAlike_step (state : State) :
    EndsAlike (step b level state .endOfInput) (step b level state (.symbol .equals)) := by
  cases state with
  | operand p outer => exact .broken _ _ rfl
  | opening f p outer => exact endsAlike_expect (by decide) _ _
  | operator sum v outer =>
    simp only [step, operatorStep, Token.productOperator?, Token.sumOperator?, Token.symbol?, Option.bind_none,
      Option.bind_some, Symbol.productOperator?, Symbol.sumOperator?]
    split
    · exact endsAlike_ok v
    · exact endsAlike_enclose _ _
  | exponent base p outer => exact .broken _ _ rfl
  | closing base n p outer => exact endsAlike_expect (by decide) _ _

/-- A mistake that is made at another token is not one of the end of the input. -/
theorem isAtEnd_of_madeAt {u : Token} {m : Mistake} (h : MadeAt u m) (hu : u ≠ .endOfInput) : m.isAtEnd = false := by
  cases h with
  | inputEnded he => exact absurd he hu
  | exponentNoNumber =>
    cases u with
    | endOfInput => exact absurd rfl hu
    | _ => rfl
  | _ => rfl

theorem together_stray (line line' : Nat) (c : Char) (h : Ahead more s t) :
    Together more (α := Binary64) (.error (.mistake line (.strayCharacter c)), s)
      (.error (.mistake line' (.strayCharacter c)), t) := by
  refine ⟨.mistake _ _ _, h, ?_⟩
  intro hn l m he
  obtain ⟨-, rfl⟩ := Failure.mistake.inj (Except.error.inj he)
  rfl

/-- A calculation that ends at a token both have read. -/
theorem together_finish (h : Ahead more s t) (hs : s.held = none) (ht : t.held = none) {u : Token}
    (back : Ahead more { s with held := some u } { t with held := some u })
    (hu : more ≠ none → (Lexeme.token u).Plain) {r : Except Mistake Binary64} {left : Bool}
    (hr : (Step.stop r left).Blames u) : Together more (finish r left u s) (finish r left u t) := by
  have hearly : more ≠ none → ∀ line line' m, r.mapError (Failure.mistake line) = .error (.mistake line' m) →
      m.isAtEnd = false := by
    intro hm line line' m he
    cases r with
    | ok v => cases he
    | error m' =>
      obtain ⟨rfl, rfl⟩ := Failure.mistake.inj (Except.error.inj he)
      exact isAtEnd_of_madeAt hr fun hend => (hu hm).2.2.2 (congrArg Lexeme.token hend)
  cases left with
  | false =>
    rw [finish_used, finish_used]
    exact ⟨matches_mapError r _ _, h, fun hm => hearly hm _⟩
  | true =>
    rw [finish_left hs, finish_left ht]
    exact ⟨matches_mapError r _ _, back, fun hm => hearly hm _⟩

/-- The shorter source has ended within an expression, where the equals sign of the other was used
    up. -/
structure Broken (rest : List Lexeme) (a b : Except Failure Binary64 × Scanner) : Prop where
  answer : ∃ line m, a.1 = .error (.mistake line m) ∧ m.isAtEnd = true
  answer' : ∃ line m, b.1 = .error (.mistake line m)
  unbroken : a.2.Unbroken
  unbroken' : b.2.Unbroken
  left : a.2.lexemes = []
  left' : b.2.lexemes = rest

theorem parted_finish {r r' : Except Mistake Binary64} {left left' : Bool}
    (h : EndsAlike (.stop r left) (.stop r' left')) (hs : s.held = none) (ht : t.held = none) (hl : s.lexemes = [])
    (hl' : t.lexemes = rest)
    (back : Ahead (some rest) { s with held := some .endOfInput } { t with held := some (.symbol .equals) }) :
    Together (some rest) (finish r left .endOfInput s) (finish r' left' (.symbol .equals) t) ∨
      Broken rest (finish r left .endOfInput s) (finish r' left' (.symbol .equals) t) := by
  cases h with
  | left r hr =>
    rw [finish_left hs, finish_left ht]
    refine .inl ⟨matches_mapError r _ _, back, ?_⟩
    intro _ line m he
    cases r with
    | ok v => cases he
    | error m' =>
      obtain ⟨rfl, rfl⟩ := Failure.mistake.inj (Except.error.inj he)
      exact hr m' rfl
  | broken m m' hm =>
    exact .inr ⟨⟨s.line, m, rfl, hm⟩, ⟨t.line, m', rfl⟩, back.unbroken, back.unbroken', hl, hl'⟩

variable (b level) in
/-- A calculation on two scanners in step comes to the same on both, unless the shorter source ends
    within it. -/
theorem run_ahead (state : State) (h : Ahead more s t) :
    Together more (run b level state s) (run b level state t) ∨
      ∃ rest, more = some rest ∧ Broken rest (run b level state s) (run b level state t) := by
  fun_induction run b level state s generalizing t with
  | case1 state s f after hn =>
    cases next_ahead h with
    | token u s' t' next _ _ _ _ => cases hn.symm.trans next
    | stray line line' c s' t' next next' ahead =>
      cases hn.symm.trans next
      rw [run_of_error next']
      exact .inl (together_stray line line' c ahead)
    | parted rest s' t' _ next _ _ _ _ => cases hn.symm.trans next
  | case2 state s u after hn next hstep ih =>
    cases next_ahead h with
    | token u' s' t' next next' ahead _ _ =>
      cases hn.symm.trans next
      rw [run_of_next next', hstep]
      exact ih ahead
    | stray line line' c s' t' next _ _ => cases hn.symm.trans next
    | parted rest s' t' _ next _ _ _ _ =>
      cases hn.symm.trans next
      exact absurd hstep (step_endOfInput _ _ _ _)
  | case3 state s u after hn r left hstep =>
    have hs := held_next s
    have ht := held_next t
    rw [hn] at hs
    cases next_ahead h with
    | token u' s' t' next next' ahead back plain =>
      cases hn.symm.trans next
      rw [next'] at ht
      rw [run_of_next next', hstep]
      exact .inl (together_finish ahead hs ht back plain (hstep ▸ blames_step state u))
    | stray line line' c s' t' next _ _ => cases hn.symm.trans next
    | parted rest s' t' there next next' hl hl' back =>
      cases hn.symm.trans next
      subst there
      rw [next'] at ht
      have he := endsAlike_step b level state
      rcases hstep' : step b level state (.symbol .equals) with after' | ⟨r', left'⟩
      · rw [hstep, hstep'] at he
        cases he
      · rw [hstep, hstep'] at he
        rw [run_of_next next', hstep']
        rcases parted_finish he hs ht hl hl' back with hp | hp
        · exact .inl hp
        · exact .inr ⟨rest, rfl, hp⟩

end Calculation

end Reckoner
