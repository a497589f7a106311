/-
  Reckoner.Proofs.Blame — a statement is refused at the first token that no statement has there.

  A mistake in the form of a statement is noticed at a token. What was read before it is the
  beginning of some statement and not yet one; with the token it is the beginning of none.
  Conversely such a token is refused, unless the calculation has failed before.

  - `exists_stands`: what has been read has a phase, unless one of its complete parts has no value.
  - `statement_refuses`: both directions, for every desk whose reads do not fail.
-/

import Reckoner.Proofs.Worth

namespace Reckoner

open Scanner Grammar
open Calculation (Pending Enclosing State eq_of_lookup eq_of_squareRoot ok_of_bind)

/-! ## Mistakes in the form of a statement -/

namespace Mistake

def isSyntax : Mistake → Bool
  | operandExpected _ => true
  | expected _ _ => true
  | nameExpected _ => true
  | equalsMissing _ => true
  | inputEnded => true
  | exponentNoNumber _ => true
  | _ => false

/-- The token that a message says was found. -/
def found? : Mistake → Option Token
  | operandExpected t => some t
  | expected _ t => some t
  | nameExpected t => some t
  | exponentNoNumber t => some t
  | _ => none

/-- The message ends with the token that was found. -/
theorem message_of_found? {m : Mistake} {t : Token} (h : m.found? = some t) :
    ∃ text, m.message = text ++ quoted t.spelling := by
  cases m with
  | operandExpected found =>
    obtain rfl := Option.some.inj h
    exact ⟨_, rfl⟩
  | expected wanted found =>
    obtain rfl := Option.some.inj h
    exact ⟨_, rfl⟩
  | nameExpected found =>
    obtain rfl := Option.some.inj h
    exact ⟨_, rfl⟩
  | exponentNoNumber found =>
    obtain rfl := Option.some.inj h
    exact ⟨_, rfl⟩
  | _ => cases h

theorem Refuses.isSyntax {m : Mistake} {t : Token} (h : m.Refuses t) : m.isSyntax = true := by cases h <;> rfl

theorem Refuses.found {m : Mistake} {t u : Token} (h : m.Refuses t) (hu : m.found? = some u) : u = t := by
  cases h with
  | operand => exact (Option.some.inj hu).symm
  | symbol => exact (Option.some.inj hu).symm
  | name => exact (Option.some.inj hu).symm
  | exponent => exact (Option.some.inj hu).symm
  | ended => cases hu

end Mistake

namespace Grammar

variable {b : Bindings}

theorem isSyntax_of_toExponent {v : Binary64} {m : Mistake} (h : v.toExponent = .error m) : m.isSyntax = false := by
  rcases Calculation.eq_of_toExponent h with rfl | rfl | ⟨n, rfl⟩
  · rfl
  · rfl
  · rfl

theorem isSyntax_of_exponent {x : Exponent} {m : Mistake} (h : x.value b = .error m) : m.isSyntax = false := by
  cases x with
  | number v => exact isSyntax_of_toExponent h
  | name n =>
    rcases hn : b.lookup n with m' | v
    · simp only [Exponent.value, hn] at h
      obtain rfl := Except.error.inj h
      obtain rfl := eq_of_lookup hn
      rfl
    · simp only [Exponent.value, hn] at h
      exact isSyntax_of_toExponent h

/-- What has no value has the form of a statement. -/
theorem Fault.isSyntax {w : List Token} {m : Mistake} (h : Fault b w m) : m.isSyntax = false := by
  cases h with
  | undeclared => rfl
  | exponent before h => exact isSyntax_of_exponent h
  | division => rfl

theorem isSyntax_of_bound {name : Option String} {v : Binary64} {m : Mistake}
    (h : Phase.bound b name (.ok v) = .error m) : m.isSyntax = false := by
  rcases name with _ | n
  · cases h
  · simp only [Phase.bound] at h
    split at h
    · obtain rfl := Except.error.inj h
      rfl
    · cases h

/-! ## Parts that have no value -/

def mistakesOf {α : Type} : Except Mistake α → List Mistake
  | .ok _ => []
  | .error m => [m]

section

variable (b : Bindings)

def sumMistakes : Option (Expression × SumOperator) → List Mistake
  | none => []
  | some (e, _) => mistakesOf (e.value b)

def productMistakes : Option (Term × ProductOperator) → List Mistake
  | none => []
  | some (t, _) => mistakesOf (t.value b)

def Waiting.mistakes (q : Waiting) : List Mistake := sumMistakes b q.sum ++ productMistakes b q.product

def aroundMistakes : Around → List Mistake
  | [] => []
  | (_, q) :: outer => aroundMistakes outer ++ q.mistakes b

/-- What an expression comes to at its end: as the argument of a root, to the root. -/
def endValue (e : Expression) : Around → Except Mistake Binary64
  | (.argument .root, _) :: _ => (Primary.root e).value b
  | _ => e.value b

/-- The mistakes of evaluating the parts that are complete once the token behind them is seen. -/
def Begun.mistakes : Begun → List Mistake
  | operand q outer => aroundMistakes b outer ++ q.mistakes b
  | opening _ q outer => aroundMistakes b outer ++ q.mistakes b
  | operator sum t outer => aroundMistakes b outer ++ mistakesOf (endValue b (whole sum t) outer)
  | exponent base q outer => aroundMistakes b outer ++ q.mistakes b ++ mistakesOf (base.value b)
  | closing base x q outer =>
    aroundMistakes b outer ++ q.mistakes b ++ mistakesOf (base.value b) ++ mistakesOf (x.value b)

def Draft.mistakes : Draft → List Mistake
  | within _ e => e.mistakes b
  | _ => []

end

theorem ok_of_mistakesOf {α : Type} {x : Except Mistake α} (h : mistakesOf x = []) : ∃ v, x = .ok v := by
  cases x with
  | ok v => exact ⟨v, rfl⟩
  | error m => cases h

theorem exists_worth_sum {sum : Option (Expression × SumOperator)} (h : sumMistakes b sum = []) :
    ∃ worth, Worth (Expression.value b) sum worth := by
  rcases sum with _ | ⟨e, op⟩
  · exact ⟨none, .none⟩
  · obtain ⟨v, hv⟩ := ok_of_mistakesOf h
    exact ⟨some (v, op), .some op hv⟩

theorem exists_worth_product {product : Option (Term × ProductOperator)} (h : productMistakes b product = []) :
    ∃ worth, Worth (Term.value b) product worth := by
  rcases product with _ | ⟨t, op⟩
  · exact ⟨none, .none⟩
  · obtain ⟨v, hv⟩ := ok_of_mistakesOf h
    exact ⟨some (v, op), .some op hv⟩

theorem exists_waits {q : Waiting} (h : q.mistakes b = []) : ∃ p, Waits b q p := by
  obtain ⟨hs, hp⟩ := List.append_eq_nil_iff.mp h
  obtain ⟨sum, hs⟩ := exists_worth_sum hs
  obtain ⟨product, hp⟩ := exists_worth_product hp
  exact ⟨⟨sum, product, negates q.signs⟩, hs, hp, rfl⟩

theorem exists_surrounds {outer : Around} (h : aroundMistakes b outer = []) : ∃ enclosing, Surrounds b outer enclosing := by
  induction outer with
  | nil => exact ⟨[], .nil⟩
  | cons x outer ih =>
    obtain ⟨k, q⟩ := x
    obtain ⟨ho, hq⟩ := List.append_eq_nil_iff.mp h
    obtain ⟨enclosing, ho⟩ := ih ho
    obtain ⟨p, hp⟩ := exists_waits hq
    exact ⟨(k, p) :: enclosing, .cons k hp ho⟩

/-- The parts of an expression that has a value have values. -/
theorem worth_of_whole {sum : Option (Expression × SumOperator)} {t : Term} {v : Binary64}
    (h : (whole sum t).value b = .ok v) :
    ∃ worth w, Worth (Expression.value b) sum worth ∧ t.value b = .ok w := by
  rcases sum with _ | ⟨e, op⟩
  · obtain ⟨w, hw, -⟩ := ok_of_bind h
    exact ⟨none, w, .none, hw⟩
  · rw [whole, Expression.value_snoc] at h
    obtain ⟨u, hu, h⟩ := ok_of_bind h
    obtain ⟨w, hw, -⟩ := ok_of_bind h
    exact ⟨some (u, op), w, .some op hu, hw⟩

theorem value_of_endValue {e : Expression} {outer : Around} {v : Binary64} (h : endValue b e outer = .ok v) :
    ∃ w, e.value b = .ok w := by
  unfold endValue at h
  split at h
  · obtain ⟨w, hw, -⟩ := ok_of_bind h
    exact ⟨w, hw⟩
  · exact ⟨v, h⟩

theorem exists_place {q : Waiting} {outer : Around} (h : aroundMistakes b outer ++ q.mistakes b = []) :
    ∃ p enclosing, Waits b q p ∧ Surrounds b outer enclosing := by
  obtain ⟨ho, hq⟩ := List.append_eq_nil_iff.mp h
  obtain ⟨enclosing, ho⟩ := exists_surrounds ho
  obtain ⟨p, hp⟩ := exists_waits hq
  exact ⟨p, enclosing, hp, ho⟩

theorem Begun.exists_stands {e : Begun} (h : e.mistakes b = []) : ∃ s, e.Stands b s := by
  cases e with
  | operand q outer =>
    obtain ⟨p, enclosing, hp, ho⟩ := exists_place h
    exact ⟨_, .operand hp ho⟩
  | opening f q outer =>
    obtain ⟨p, enclosing, hp, ho⟩ := exists_place h
    exact ⟨_, .opening f hp ho⟩
  | operator sum t outer =>
    obtain ⟨ho, hv⟩ := List.append_eq_nil_iff.mp h
    obtain ⟨enclosing, ho⟩ := exists_surrounds ho
    obtain ⟨v, hv⟩ := ok_of_mistakesOf hv
    obtain ⟨v, hv⟩ := value_of_endValue hv
    obtain ⟨worth, w, hs, ht⟩ := worth_of_whole hv
    exact ⟨_, .operator hs ht ho⟩
  | exponent base q outer =>
    obtain ⟨h, hv⟩ := List.append_eq_nil_iff.mp h
    obtain ⟨p, enclosing, hp, ho⟩ := exists_place h
    obtain ⟨v, hv⟩ := ok_of_mistakesOf hv
    exact ⟨_, .exponent hv hp ho⟩
  | closing base x q outer =>
    obtain ⟨h, hn⟩ := List.append_eq_nil_iff.mp h
    obtain ⟨h, hv⟩ := List.append_eq_nil_iff.mp h
    obtain ⟨p, enclosing, hp, ho⟩ := exists_place h
    obtain ⟨v, hv⟩ := ok_of_mistakesOf hv
    obtain ⟨n, hn⟩ := ok_of_mistakesOf hn
    exact ⟨_, .closing hv hn hp ho⟩

/-- What has been read has a phase, unless a part that is complete has no value. -/
theorem Draft.exists_stands {draft : Draft} (h : draft.mistakes b = []) : ∃ p, draft.Stands b p := by
  cases draft with
  | start => exact ⟨.start, .start⟩
  | declared => exact ⟨.declared, .declared⟩
  | named name => exact ⟨.named name, .named name⟩
  | within name e =>
    obtain ⟨s, hs⟩ := Begun.exists_stands h
    exact ⟨.within name s, .within name hs⟩

/-- A draft without mistakes is read, or another one of the same yield. -/
theorem exists_reached {draft : Draft} (h : draft.mistakes b = []) {s : Scanner} (hu : s.Unbroken) {rest : List Lexeme}
    (hl : s.lexemes = draft.yield.map .token ++ rest) :
    ∃ (read : Draft) (p : Phase), read.yield = draft.yield ∧ read.mistakes b = [] ∧ read.Stands b p ∧
      Reached b .expression .start s draft.yield p (s.after draft.yield.length) := by
  by_cases hne : draft.yield = []
  · rw [hne]
    exact ⟨.start, .start, rfl, rfl, .start, .none⟩
  · obtain ⟨p, hp⟩ := Draft.exists_stands h
    exact ⟨draft, p, rfl, h, hp, reached_stands hp hne hu hl⟩

end Grammar

/-! ## Statements that are refused -/

namespace Desk

/-- A scanner none of whose reads fail answers with a token, unless a stray character stands there. -/
theorem stray_of_next {s after : Scanner} (h : s.Unbroken) {f : Failure} (hn : s.next = (.error f, after)) :
    ∃ c, f = .mistake after.line (.strayCharacter c) := by
  have hl := next_lexemes h
  rw [hn] at hl
  split at hl
  · cases hl.1
  · rename_i l rest _
    cases l with
    | token t => cases hl.1
    | stray c => exact ⟨c, Except.error.inj hl.1⟩

variable {d : Desk}

/-- The mistake in the form of a statement is made at a token that no draft goes on with. -/
theorem refused_of_statement (h : d.scanner.Unbroken) {line : Nat} {m : Mistake}
    (he : d.statement.1 = .error (.mistake line m)) (hm : m.isSyntax = true) :
    ∃ (w : List Token) (draft : Draft) (t : Token) (rest : List Lexeme), Draft.start.read w = some draft ∧
      d.scanner.lexemes = w.map .token ++ rest ∧ front? rest = some t ∧
        d.statement.2.scanner = d.scanner.after (w.length + 1) ∧ draft.next? t = none ∧ ¬ draft.IsWhole ∧
          ∀ u, m.found? = some u → u = t := by
  have hended := ended_statement d
  generalize ha : (d.statement.1, d.statement.2.scanner) = a at hended
  rw [he] at ha
  cases hended with
  | @failed w p s after f hr read =>
    have hs : s.Unbroken := hr.scanner ▸ unbroken_after h _
    obtain ⟨c, rfl⟩ := stray_of_next hs read
    obtain ⟨-, rfl⟩ := Failure.mistake.inj (Except.error.inj (congrArg Prod.fst ha))
    cases hm
  | @stopped w p s after t result left hr read step =>
    have hs : s.Unbroken := hr.scanner ▸ unbroken_after h _
    have hheld := held_next s
    rw [read] at hheld
    obtain ⟨rfl, -⟩ := error_of_finish hheld (congrArg Prod.fst ha).symm
    obtain ⟨draft, hread, hstands⟩ := stands_reached hr
    have hfront : front? s.lexemes = some t := (next_eq_ok_iff hs).mp (congrArg Prod.fst read)
    have hafter : after = d.scanner.after (w.length + 1) := by rw [after_succ, ← hr.scanner, read]
    have hturns := turns_step hstands t
    rw [step] at hturns
    generalize hresult : Except.error m = result at hturns
    cases hturns with
    | fault go hf =>
      obtain rfl := Except.error.inj hresult
      rw [hf.isSyntax] at hm
      cases hm
    | impossible go due hrefuses =>
      obtain rfl := Except.error.inj hresult
      rw [hafter] at ha
      exact ⟨w, draft, t, s.lexemes, hread, hr.lexemes h, hfront, congrArg Prod.snd ha, go, due,
        fun u hu => hrefuses.found hu⟩
    | missing hd ht =>
      obtain rfl := Except.error.inj hresult
      subst hd
      rw [hafter] at ha
      exact ⟨w, _, t, s.lexemes, hread, hr.lexemes h, hfront, congrArg Prod.snd ha, if_neg ht, id, nofun⟩
    | root hd hv hroot ht =>
      obtain rfl := Except.error.inj hresult
      obtain rfl := eq_of_squareRoot hroot
      cases hm
    | done hd hv ht =>
      rw [isSyntax_of_bound hresult.symm] at hm
      cases hm

/-- A token that no draft goes on with is refused, if what stands before it has no mistakes. -/
theorem statement_of_refused (h : d.scanner.Unbroken) {w : List Token} {t : Token} {rest : List Lexeme}
    (hl : d.scanner.lexemes = w.map .token ++ rest) (ht : front? rest = some t) (hw : ¬ Complete w)
    (hv : ¬ Viable (w ++ [t])) (hd : ∃ draft : Draft, draft.yield = w ∧ draft.mistakes d.bindings = []) :
    ∃ line m, d.statement.1 = .error (.mistake line m) ∧ m.isSyntax = true ∧
      d.statement.2.scanner = d.scanner.after (w.length + 1) ∧ ∀ u, m.found? = some u → u = t := by
  obtain ⟨draft', rfl, hmistakes⟩ := hd
  obtain ⟨draft, p, hy, hmistakes, hstands, hr⟩ := exists_reached hmistakes h hl
  rw [← hy] at hw hv
  have hs : (d.scanner.after draft'.yield.length).Unbroken := unbroken_after h _
  have hlex : (d.scanner.after draft'.yield.length).lexemes = rest := by
    rw [lexemes_after h, hl]
    exact List.drop_left' (List.length_map _)
  have hn : (d.scanner.after draft'.yield.length).next = (.ok t, d.scanner.after (draft'.yield.length + 1)) :=
    Prod.ext ((next_eq_ok_iff hs).mpr (hlex ▸ ht)) (after_succ _ _).symm
  have hturns := turns_step hstands t
  generalize hstep : p.step d.bindings .expression t = step at hturns
  cases hturns with
  | on go => exact absurd (Draft.viable_of_next? go) hv
  | fault go => exact absurd (Draft.viable_of_next? go) hv
  | impossible go due hm =>
    have hend := (ended_statement d).eq_of_stop hr hn hstep
    rw [Calculation.finish_used] at hend
    exact ⟨_, _, congrArg Prod.fst hend, hm.isSyntax, congrArg Prod.snd hend, fun u hu => hm.found hu⟩
  | missing hd ht' =>
    have hend := (ended_statement d).eq_of_stop hr hn hstep
    rw [Calculation.finish_used] at hend
    exact ⟨_, _, congrArg Prod.fst hend, rfl, congrArg Prod.snd hend, nofun⟩
  | @root name sum last q outer v m hd hval hroot =>
    -- the root of what stands in its brackets would be among the mistakes
    subst hd
    have hx : (Primary.root (whole sum last)).value d.bindings = .error m := by
      simp [Primary.value, hval, hroot, bind, Except.bind]
    obtain ⟨-, hm⟩ := List.append_eq_nil_iff.mp hmistakes
    rw [endValue, hx] at hm
    cases hm
  | @done name sum last v hd =>
    subst hd
    have hwhole : (Draft.within name (.operator sum last [])).IsWhole := trivial
    exact absurd (Draft.complete_of_isWhole hwhole) hw

/-- A statement that fails for its form fails at the first token with which no statement begins:
    what was read before that token is the beginning of a statement, and no statement yet.
    Conversely, such a token behind what is the yield of a draft, and so the beginning of a
    statement (`viable_iff`), makes the statement fail for its form, if no part that is complete
    has a mistake, as that of a root whose argument ends at this token. A token that the message
    says was found is this token. -/
theorem statement_refuses (d : Desk) (h : d.scanner.Unbroken) :
    (∀ line m, d.statement.1 = .error (.mistake line m) → m.isSyntax = true →
      ∃ (w : List Token) (t : Token) (rest : List Lexeme), d.scanner.lexemes = w.map .token ++ rest ∧
        front? rest = some t ∧ d.statement.2.scanner = d.scanner.after (w.length + 1) ∧ Viable w ∧ ¬ Complete w ∧
          ¬ Viable (w ++ [t]) ∧ ∀ u, m.found? = some u → u = t) ∧
      ∀ (w : List Token) (t : Token) (rest : List Lexeme), d.scanner.lexemes = w.map .token ++ rest →
        front? rest = some t → Viable w → ¬ Complete w → ¬ Viable (w ++ [t]) →
        (∃ draft : Draft, draft.yield = w ∧ draft.mistakes d.bindings = []) →
          ∃ line m, d.statement.1 = .error (.mistake line m) ∧ m.isSyntax = true ∧
            d.statement.2.scanner = d.scanner.after (w.length + 1) ∧
              ∀ u, m.found? = some u → u = t ∧ ∃ text, m.message = text ++ quoted t.spelling := by
  constructor
  · intro line m he hm
    obtain ⟨w, draft, t, rest, hread, hl, ht, hlast, hnext, hdue, hfound⟩ := refused_of_statement h he hm
    refine ⟨w, t, rest, hl, ht, hlast, ?_, ?_, ?_, hfound⟩
    · exact Draft.viable_iff.mpr ⟨draft, Draft.yield_read hread⟩
    · rw [Draft.complete_iff hread]
      exact hdue
    · rw [Draft.viable_append_iff hread, hnext]
      rintro ⟨next, hn⟩
      cases hn
  · intro w t rest hl ht _ hw hv hd
    obtain ⟨line, m, he, hm, hlast, hfound⟩ := statement_of_refused h hl ht hw hv hd
    refine ⟨line, m, he, hm, hlast, ?_⟩
    intro u hu
    obtain rfl := hfound u hu
    exact ⟨rfl, Mistake.message_of_found? hu⟩

/-- In `#x = 4 / 2 + (k 3` a bracket is due, and `3` is refused. -/
theorem statement_refuses_bracket :
    let d := Desk.ofPieces (Source.ofString "#x = 4 / 2 + (k 3")
    let number (n : Nat) := (⟨n, 0⟩ : Decimal).toBinary64
    let w : List Token := [.keyword .declare, .name "x", .symbol .equals, .number (number 4), .symbol .slash,
      .number (number 2), .symbol .plus, .symbol .opening, .name "k"]
    let t : Token := .number (number 3)
    d.scanner.Unbroken ∧ d.scanner.lexemes = w.map .token ++ [.token t] ∧ Viable w ∧ ¬ Complete w ∧ ¬ Viable (w ++ [t]) ∧
      ∃ line m, d.statement.1 = .error (.mistake line m) ∧ m.isSyntax = true ∧
        ∀ u, m.found? = some u → u = t ∧ ∃ text, m.message = text ++ quoted t.spelling := by
  intro d number w t
  let four : Term := .of (.number (number 4)) (.more .divided (.number (number 2)) .none)
  let outer : Around := [(.group, { sum := some (.of four .none, .plus) })]
  let draft : Draft := .within (some "x") (.operator none (.of (.name "k") .none) outer)
  have hu : d.scanner.Unbroken := unbroken_ofPieces ["#x = 4 / 2 + (k 3".toUTF8.toList]
  have hl : d.scanner.lexemes = w.map .token ++ [.token t] := by decide +kernel
  have hread : Draft.start.read w = some draft := rfl
  have hviable : Viable w := Draft.viable_iff.mpr ⟨draft, rfl⟩
  have hw : ¬ Complete w := by
    rw [Draft.complete_iff hread]
    exact id
  have hv : ¬ Viable (w ++ [t]) := by
    rw [Draft.viable_append_iff hread]
    rintro ⟨next, hn⟩
    cases hn
  have hmistakes : draft.mistakes d.bindings = [] := by decide +kernel
  obtain ⟨line, m, he, hm, -, hfound⟩ :=
    (statement_refuses d hu).2 w t [.token t] hl rfl hviable hw hv ⟨draft, rfl, hmistakes⟩
  exact ⟨hu, hl, hviable, hw, hv, line, m, he, hm, hfound⟩

end Desk

end Reckoner
