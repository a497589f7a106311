/-
  Reckoner.Proofs.Lookahead — one token of lookahead is enough.

  A production takes each token before it puts one back, so that there is always room for it; and so
  does a statement, whose first token is put back for its expression, and a session, which puts the
  first token of a statement back.

  - `exits_statement`: how a statement ends, and what waits behind it.
  - `lookahead_suffices`: for every scanner, whatever it holds and whatever its reads give.
-/

import Reckoner.Proofs.Ending
import Reckoner.Proofs.Held
import Reckoner.Proofs.WriteOnce

namespace Reckoner

open Scanner Grammar Production

/-- What went wrong, if anything did. -/
def Failure.of? {α : Type} : Except Failure α → Option Failure
  | .ok _ => none
  | .error f => some f

theorem Failure.error_of_of? {α : Type} {x : Except Failure α} {f : Failure} (h : of? x = some f) : x = .error f := by
  cases x with
  | ok v => cases h
  | error g =>
    obtain rfl := Option.some.inj h
    rfl

namespace Scanner

/-- Skipping fails only with a read. -/
theorem io_of_skipPast {s : Scanner} {c : Char} {f : Failure} (h : (s.skipPast c).1 = .error f) :
    ∃ message, f = .io message := by
  unfold skipPast at h
  split at h
  · split at h
    · cases h
    · obtain ⟨message, hf, -⟩ := stems_seek h
      exact ⟨message, hf⟩
  · obtain ⟨message, hf, -⟩ := stems_seek h
    exact ⟨message, hf⟩

end Scanner

/-! ## Statements and runs -/

namespace Desk

variable {first : Scanner} {d : Desk}

theorem exits_bindTo (name : String) (h : first.Reaches d.scanner) :
    Exits (first.Waits (· ∉ operators)) (d.bindTo name).1 (d.bindTo name).2.scanner := by
  have he : Exits _ (d.calculate .expression).1 (d.calculate .expression).2.scanner := exits_expression h
  rcases hc : d.calculate .expression with ⟨f | v, after⟩
  · rw [hc] at he
    rwa [bindTo_of_error hc]
  · rw [hc] at he
    have hw := he.good_of_ok rfl
    rw [bindTo_of_ok hc]
    split
    · exact .mistake _ _ hw.isSome_held
    · exact .value v hw

theorem exits_declaration (h : first.Reaches d.scanner) :
    Exits (first.Waits (· ∉ operators)) d.declaration.1 d.declaration.2.scanner := by
  unfold declaration
  split
  · rename_i f s hn
    exact .of_next hn
  · rename_i name s hn
    split
    · rename_i f s' hn'
      exact .of_next hn'
    · rename_i t s' hn'
      split
      · exact exits_bindTo name ((h.next hn).next hn')
      · exact .early _ rfl (held_of_next hn')
  · rename_i s hn
    exact .early _ rfl (held_of_next hn)
  · rename_i t s _ _ hn
    exact .early _ rfl (held_of_next hn)

/-- The first token of a statement is taken before it is put back for the expression. -/
theorem exits_statement (h : first.Reaches d.scanner) :
    Exits (first.Waits (· ∉ operators)) d.statement.1 d.statement.2.scanner := by
  rcases hn : d.scanner.next with ⟨f | t, s⟩
  · rw [statement_of_error hn]
    exact .of_next hn
  by_cases ht : t = .keyword .declare
  · subst ht
    rw [statement_of_declare hn]
    exact exits_declaration (d := { d with scanner := s }) (h.next hn)
  · rw [statement_of_token hn ht]
    exact exits_expression (h.putBack hn).reaches

theorem error_of_firstToken {s : Scanner} {f : Failure} (h : (firstToken s).1 = .error f) :
    (∃ line c, f = .mistake line (.strayCharacter c)) ∨ ∃ message, f = .io message := by
  fun_induction firstToken s with
  | case1 s g after hn =>
    obtain rfl := Except.error.inj h
    exact error_of_next (congrArg Prod.fst hn)
  | case2 s after hn ih => exact ih h
  | case3 => cases h

theorem nextValue_ne_heldTwice (d : Desk) (line : Nat) : d.nextValue.1 ≠ .error (.heldTwice line) := by
  intro h
  rcases hf : firstToken d.scanner with ⟨f | t, s⟩
  · rw [nextValue_of_error hf] at h
    obtain rfl := Except.error.inj h
    rcases error_of_firstToken (congrArg Prod.fst hf) with ⟨_, _, he⟩ | ⟨_, he⟩ <;> cases he
  by_cases hq : t = .keyword .exit ∨ t = .endOfInput
  · rw [nextValue_of_end hf hq] at h
    cases h
  · rw [nextValue_of_token hf hq] at h
    have hne := (exits_statement (d := { d with scanner := { s with held := some t } }) (Reaches.refl _)).ne_heldTwice line
    rcases hs : (statement { d with scanner := { s with held := some t } }).1 with g | v
    · rw [hs] at h hne
      obtain rfl := Except.error.inj h
      exact hne rfl
    · rw [hs] at h
      cases h

end Desk

namespace Session

theorem recover_ne_heldTwice (s : Session) (f : Failure) (line : Nat) :
    (s.recover f).1 ≠ some (.failed (.heldTwice line)) := by
  intro h
  unfold recover at h
  split at h
  · rename_i g err hw
    cases h
    obtain ⟨message, he⟩ := Sink.io_of_write (congrArg Prod.fst hw)
    cases he
  · obtain ⟨message, he⟩ := io_of_skipPast (eq_error_of_proceed h)
    cases he

theorem turn_ne_heldTwice (s : Session) (line : Nat) : s.turn.1 ≠ some (.failed (.heldTwice line)) := by
  intro h
  have hnext := s.desk.nextValue_ne_heldTwice line
  unfold turn nextValue at h
  rcases hn : s.desk.nextValue with ⟨g | _ | v, after⟩
  · rw [hn] at h hnext
    dsimp only at h
    split at h
    · exact recover_ne_heldTwice _ _ _ h
    · cases h
      exact hnext rfl
  · rw [hn] at h
    obtain ⟨message, he⟩ := io_of_close (Option.some.inj h)
    cases he
  · rw [hn] at h
    obtain ⟨message, he⟩ := io_of_printValue h
    cases he

theorem run_ne_heldTwice (s : Session) (line : Nat) : s.run.1 ≠ .failed (.heldTwice line) := by
  fun_induction run s with
  | case1 s ending after hn =>
    rintro rfl
    exact turn_ne_heldTwice s line (congrArg Prod.fst hn)
  | case2 s after hn ih => exact ih

/-- Whatever waits to be read again, whatever is bound and whatever the reads give: no token is put
    back while another one waits. Behind a primary none waits; behind a term, an expression and a
    statement the token waits at which they ended, as it does not go on with them; behind a
    statement that fails none waits, unless the mistake was noticed at such a token. -/
theorem lookahead_suffices (s : Session) :
    let b := s.desk.bindings
    let first := s.desk.scanner
    (∀ line, (primary b first).answer ≠ .error (.heldTwice line) ∧ (term b first).answer ≠ .error (.heldTwice line) ∧
        (expression b first).answer ≠ .error (.heldTwice line) ∧ s.desk.statement.1 ≠ .error (.heldTwice line) ∧
          s.nextValue.1 ≠ .error (.heldTwice line) ∧ s.run.1 ≠ .failed (.heldTwice line)) ∧
      (∀ v, (primary b first).answer = .ok v → (primary b first).scanner.held = none) ∧
      (∀ v, (term b first).answer = .ok v →
        ∃ t, first.PutBack t (term b first).scanner ∧ t ∉ [.symbol .star, .symbol .slash, .symbol .percent]) ∧
      (∀ v, (expression b first).answer = .ok v →
        ∃ t, first.PutBack t (expression b first).scanner ∧ t ∉ operators) ∧
      (∀ v, s.desk.statement.1 = .ok v → ∃ t, first.PutBack t s.desk.statement.2.scanner ∧ t ∉ operators) ∧
      ∀ f, s.desk.statement.1 = .error f →
        (s.desk.statement.2.scanner.held ≠ none ↔
          ∃ line m, f = .mistake line m ∧ ((∃ v, m = .negativeRoot v) ∨ ∃ name, m = .declaredTwice name)) := by
  intro b first
  have hprimary := exits_primary (b := b) (Reaches.refl first)
  have hterm := exits_term (b := b) (Reaches.refl first)
  have hexpression := exits_expression (b := b) (Reaches.refl first)
  have hstatement := Desk.exits_statement (d := s.desk) (Reaches.refl first)
  refine ⟨?_, ?_, ?_, ?_, ?_, ?_⟩
  · intro line
    exact ⟨hprimary.ne_heldTwice line, hterm.ne_heldTwice line, hexpression.ne_heldTwice line,
      hstatement.ne_heldTwice line, s.desk.nextValue_ne_heldTwice line, s.run_ne_heldTwice line⟩
  · intro v hv
    exact (hprimary.good_of_ok hv).held
  · intro v hv
    obtain ⟨t, hback, ht⟩ := hterm.good_of_ok hv
    exact ⟨t, hback, not_mem_productOperators.mpr ht⟩
  · intro v hv
    exact hexpression.good_of_ok hv
  · intro v hv
    exact hstatement.good_of_ok hv
  · intro f hf
    rw [hstatement.held_of_error hf]
    refine exists_congr fun line => exists_congr fun m => and_congr_right fun _ => ?_
    cases m <;> simp [Mistake.isLate]

/-- In `8 % 3 + 1` nothing waits behind the primary, a sign behind the term, and the end of the
    input behind the expression and the statement. The root of a negative number is noticed at the
    bracket, which waits. -/
theorem lookahead_suffices_remainder :
    let number (n : Nat) := (⟨n, 0⟩ : Decimal).toBinary64
    let d := Desk.ofPieces (Source.ofString "8 % 3 + 1")
    let e := Desk.ofPieces (Source.ofString "2 + sqrt(0 - 9) =")
    let b := d.bindings
    let first := d.scanner
    (primary b first).answer = .ok (number 8) ∧ (primary b first).scanner.held = none ∧
      (term b first).answer = .ok (number 2) ∧ (∃ t, first.PutBack t (term b first).scanner) ∧
        (expression b first).answer = .ok (number 3) ∧
          (∃ t, first.PutBack t (expression b first).scanner ∧ t ∉ operators) ∧
            d.statement.1 = .ok (number 3) ∧ (∃ t, first.PutBack t d.statement.2.scanner ∧ t ∉ operators) ∧
              e.statement.1 = .error (.mistake 1 (.negativeRoot (number 9).neg)) ∧ e.statement.2.scanner.held ≠ none := by
  intro number d e b first
  have hprimary : (primary b first).answer = .ok (number 8) := ok_of_toOption (by decide +kernel)
  have hterm : (term b first).answer = .ok (number 2) := ok_of_toOption (by decide +kernel)
  have hexpression : (expression b first).answer = .ok (number 3) := ok_of_toOption (by decide +kernel)
  have hstatement : d.statement.1 = .ok (number 3) := ok_of_toOption (by decide +kernel)
  have hroot : e.statement.1 = .error (.mistake 1 (.negativeRoot (number 9).neg)) :=
    Failure.error_of_of? (by decide +kernel)
  obtain ⟨-, hp, ht, he, hs, -⟩ := lookahead_suffices { desk := d }
  obtain ⟨-, -, -, -, -, hf⟩ := lookahead_suffices { desk := e }
  obtain ⟨t, hback, -⟩ := ht _ hterm
  exact ⟨hprimary, hp _ hprimary, hterm, ⟨t, hback⟩, hexpression, he _ hexpression, hstatement, hs _ hstatement,
    hroot, (hf _ hroot).mpr ⟨1, _, rfl, .inl ⟨_, rfl⟩⟩⟩

end Session

end Reckoner
