/-
  Reckoner.Proofs.Held — the token that waits behind a production.

  A primary ends with its last token, and leaves none to wait. A term and an expression end at the
  first token that does not go on with them, which waits. Behind a mistake a token waits only if the
  mistake was noticed at it, behind an expression; behind a failed read none does. As every token is
  taken before one is put back, there is always room for it.

  - `exits_primary`, `exits_term`, `exits_expression`: from every scanner, by induction over what is
    left to read.
-/

import Reckoner.Proofs.Calculation
import Reckoner.Proofs.Reading

namespace Reckoner

open Scanner Grammar

/-- A mistake that is noticed at the token behind an expression, which is left. -/
def Mistake.isLate : Mistake → Bool
  | negativeRoot _ => true
  | declaredTwice _ => true
  | _ => false

theorem not_mem_productOperators {t : Token} :
    t ∉ [.symbol .star, .symbol .slash, .symbol .percent] ↔ t.productOperator? = none := by
  cases t with
  | symbol s => cases s <;> decide
  | _ => simp [Token.productOperator?, Token.symbol?]

namespace Scanner

theorem error_of_advance {ended : Bool} {text : List Char} {line : Nat} {reads : List Read} {f : Failure}
    (h : (advance ended text line reads).1 = .error f) :
    (∃ line c, f = .mistake line (.strayCharacter c)) ∨ ∃ message, f = .io message := by
  fun_induction advance ended text line reads with
  | case1 => cases h
  | case2 text line c rest reads hn => exact .inl ⟨line, c, (Except.error.inj h).symm⟩
  | case3 => cases h
  | case4 text line message reads hn => exact .inr ⟨message, (Except.error.inj h).symm⟩
  | case5 text line next reads hn ih => exact ih h

/-- A scanner fails to answer with a token at a stray character, or where a read fails. -/
theorem error_of_next {s : Scanner} {f : Failure} (h : s.next.1 = .error f) :
    (∃ line c, f = .mistake line (.strayCharacter c)) ∨ ∃ message, f = .io message := by
  unfold next at h
  split at h
  · cases h
  · exact error_of_advance h

theorem held_of_next {s after : Scanner} {t : Token} (h : s.next = (.ok t, after)) : after.held = none := by
  have hheld := held_next s
  rwa [h] at hheld

/-- What holds of a scanner if it holds of those with less to read. -/
theorem unread_induction {motive : Scanner → Prop}
    (less : ∀ s : Scanner, (∀ s' : Scanner, s'.unread < s.unread → motive s') → motive s) (s : Scanner) : motive s :=
  (measure unread).wf.induction s less

/-! ## Where a scanner has come to -/

/-- `first` goes on as `s` does when it has been asked for some tokens. -/
def Reaches (first s : Scanner) : Prop := ∃ count, s.next = (first.after count).next

/-- `first` was asked for tokens until `t` came, which was put back. -/
def PutBack (first : Scanner) (t : Token) (s : Scanner) : Prop :=
  ∃ count last, (first.after count).next = (.ok t, last) ∧ s = { last with held := some t }

variable {first s after : Scanner} {t : Token}

theorem Reaches.refl (s : Scanner) : s.Reaches s := ⟨0, rfl⟩

theorem Reaches.next (h : first.Reaches s) (hn : s.next = (.ok t, after)) : first.Reaches after := by
  obtain ⟨count, hc⟩ := h
  exact ⟨count + 1, by rw [after_succ, ← hc, hn]⟩

theorem Reaches.putBack (h : first.Reaches s) (hn : s.next = (.ok t, after)) :
    first.PutBack t { after with held := some t } := by
  obtain ⟨count, hc⟩ := h
  exact ⟨count, after, hc ▸ hn, rfl⟩

theorem PutBack.held (h : first.PutBack t s) : s.held = some t := by
  obtain ⟨count, last, -, rfl⟩ := h
  rfl

/-- The token that was put back is the next one. -/
theorem PutBack.next (h : first.PutBack t s) : s.next = (.ok t, { s with held := none }) := by
  rw [Scanner.next, h.held]

theorem PutBack.eq_of_next {u : Token} (h : first.PutBack t s) (hn : s.next = (.ok u, after)) : t = u :=
  Except.ok.inj (Prod.mk.inj (h.next.symm.trans hn)).1

theorem PutBack.reaches (h : first.PutBack t s) : first.Reaches s := by
  obtain ⟨count, last, hn, rfl⟩ := h
  exact ⟨count, by rw [next_hold (held_of_next hn), hn]⟩

/-- No token waits behind what was read. -/
structure Clear (first s : Scanner) : Prop where
  held : s.held = none
  reaches : first.Reaches s

/-- The token waits at which what was read ended. -/
def Waits (first : Scanner) (ends : Token → Prop) (s : Scanner) : Prop := ∃ t, first.PutBack t s ∧ ends t

theorem Waits.reaches {ends : Token → Prop} (h : first.Waits ends s) : first.Reaches s := by
  obtain ⟨t, hback, -⟩ := h
  exact hback.reaches

theorem Waits.isSome_held {ends : Token → Prop} (h : first.Waits ends s) : s.held.isSome = true := by
  obtain ⟨t, hback, -⟩ := h
  rw [hback.held]
  rfl

end Scanner

/-! ## How a reading ends -/

/-- A reading ends with a value, and the scanner is then as it should be; or with a mistake, and a
    token waits only behind a late one; or at a failed read, and none waits. -/
inductive Exits {α : Type} (good : Scanner → Prop) : Except Failure α → Scanner → Prop
  | value (v : α) {s : Scanner} (h : good s) : Exits good (.ok v) s
  | mistake (line : Nat) (m : Mistake) {s : Scanner} (held : s.held.isSome = m.isLate) :
    Exits good (.error (.mistake line m)) s
  | unread (message : String) {s : Scanner} (held : s.held = none) : Exits good (.error (.io message)) s

namespace Exits

variable {α : Type} {good : Scanner → Prop} {answer : Except Failure α} {s after : Scanner}

/-- A read that fails leaves no token behind. -/
theorem of_next {f : Failure} (h : s.next = (.error f, after)) : Exits good (.error f : Except Failure α) after := by
  have hheld := held_next s
  rw [h] at hheld
  rcases error_of_next (congrArg Prod.fst h) with ⟨line, c, rfl⟩ | ⟨message, rfl⟩
  · exact .mistake line _ (by rw [hheld]; rfl)
  · exact .unread message hheld

/-- A mistake that is not late, where no token waits. -/
theorem early (line : Nat) {m : Mistake} (hm : m.isLate = false) (hs : s.held = none) :
    Exits good (.error (.mistake line m) : Except Failure α) s := .mistake line m (by rw [hs, hm]; rfl)

theorem ne_heldTwice (h : Exits good answer s) (line : Nat) : answer ≠ .error (.heldTwice line) := by
  cases h <;> simp

theorem good_of_ok (h : Exits good answer s) {v : α} (hv : answer = .ok v) : good s := by
  cases h with
  | value w h => exact h
  | mistake => cases hv
  | unread => cases hv

theorem held_of_error (h : Exits good answer s) {f : Failure} (hf : answer = .error f) :
    s.held ≠ none ↔ ∃ line m, f = .mistake line m ∧ m.isLate = true := by
  cases h with
  | value => cases hf
  | mistake line m held =>
    obtain rfl := Except.error.inj hf
    rw [← Option.isSome_iff_ne_none, held]
    refine ⟨fun h => ⟨line, m, rfl, h⟩, ?_⟩
    rintro ⟨line', m', he, h⟩
    obtain ⟨-, rfl⟩ := Failure.mistake.inj he
    exact h
  | unread message held =>
    obtain rfl := Except.error.inj hf
    refine ⟨fun h => absurd held h, ?_⟩
    rintro ⟨line, m, he, -⟩
    cases he

end Exits

namespace Production

variable {α β : Type} {n : Nat} {good : Scanner → Prop} {first s after : Scanner} {t : Token} {b : Bindings}

def Result.Exits (r : Result n α) (good : Scanner → Prop) : Prop := Reckoner.Exits good r.answer r.scanner

/-- What goes on where a reading ended well ends as it does from there; a failure is passed on as it
    is. -/
theorem Result.Exits.andThen {r : Result n α} {go : α → (s : Scanner) → s.unread ≤ n → Result s.unread β}
    {better : Scanner → Prop} (h : r.Exits good) (hgo : ∀ v s hs, good s → (go v s hs).Exits better) :
    (r.andThen go).Exits better := by
  obtain ⟨answer, scanner, hs⟩ := r
  cases h with
  | value v h => exact hgo v scanner hs h
  | mistake line m held => exact .mistake line m held
  | unread message held => exact .unread message held

theorem exits_ok (v : α) (h : good s) : (Result.ok v s).Exits good := .value v h

theorem exits_check {r : Except Mistake α} (h : good s) (hr : ∀ m, r = .error m → s.held.isSome = m.isLate) :
    (Result.check r s).Exits good := by
  cases r with
  | ok v => exact .value v h
  | error m => exact .mistake s.line m (hr m rfl)

theorem exits_next (h : first.Reaches s) : (next s).Exits first.Clear := by
  show Reckoner.Exits _ s.next.1 s.next.2
  rcases hn : s.next with ⟨f | t, after⟩
  · exact .of_next hn
  · exact .value t ⟨held_of_next hn, h.next hn⟩

theorem exits_withNext
    {go : (t : Token) → (after : Scanner) → heldSize (some t) + after.unread ≤ s.unread → Result s.unread α}
    (h : first.Reaches s)
    (hgo : ∀ t after ht, s.next = (.ok t, after) → first.Clear after → (go t after ht).Exits good) :
    (withNext s go).Exits good := by
  rcases hn : s.next with ⟨f | t, after⟩
  · obtain ⟨ha, hs⟩ := withNext_of_error go hn
    rw [Result.Exits, ha, hs]
    exact .of_next hn
  · rw [withNext_of_token hn]
    exact hgo t after _ hn ⟨held_of_next hn, h.next hn⟩

/-- There is room for a token that was taken: it is put back, and waits. -/
theorem exits_putBack {ends : Token → Prop} (h : first.Reaches s) (hn : s.next = (.ok t, after))
    (ht : heldSize (some t) + after.unread ≤ n) (he : ends t) :
    (putBack t after ht).Exits (first.Waits ends) := by
  rw [Result.Exits, putBack]
  dsimp only
  rw [putBack_of_held_none (held_of_next hn)]
  exact .value () ⟨t, h.putBack hn, he⟩

theorem exits_expect (wanted : Symbol) (h : first.Reaches s) : (expect wanted s).Exits first.Clear := by
  rw [expect]
  refine (exits_next h).andThen fun t s _ hc => ?_
  split
  · exact exits_ok () hc
  · split
    · exact .early _ rfl hc.held
    · exact .early _ rfl hc.held

theorem isLate_of_toExponent {v : Binary64} {m : Mistake} (h : v.toExponent = .error m) : m.isLate = false := by
  rcases Calculation.eq_of_toExponent h with rfl | rfl | ⟨n, rfl⟩
  · rfl
  · rfl
  · rfl

theorem isLate_of_exponentValue {m : Mistake} (h : exponentValue b t = .error m) : m.isLate = false := by
  unfold exponentValue at h
  split at h
  · cases h
  · obtain rfl := Calculation.eq_of_lookup h
    rfl
  · obtain rfl := Except.error.inj h
    rfl

/-- An operation whose mistakes are not late, where no token waits. -/
theorem exits_check_of_clear {r : Except Mistake α} (hc : first.Clear s) (hr : ∀ m, r = .error m → m.isLate = false) :
    (Result.check r s).Exits first.Clear :=
  exits_check hc fun m hm => by rw [hc.held, hr m hm]; rfl

theorem exits_exponent (h : first.Reaches s) : (exponent b s).Exits first.Clear := by
  rw [exponent]
  refine (exits_next h).andThen fun t s _ hc => ?_
  refine (exits_check_of_clear hc fun m hm => isLate_of_exponentValue hm).andThen fun v s _ hc => ?_
  exact exits_check_of_clear hc fun m hm => isLate_of_toExponent hm

/-! ## Productions -/

section

-- what is known of every primary that has less to read
variable (hp : ∀ s : Scanner, s.unread < n → first.Reaches s → (primary b s).Exits first.Clear)
include hp

theorem exits_factors (left : Binary64) (hs : s.unread ≤ n) (h : first.Reaches s) :
    (factors b left s).Exits (first.Waits (·.productOperator? = none)) := by
  induction s using unread_induction generalizing left with
  | less s ih =>
    rw [factors]
    refine exits_withNext h fun t after ht hn hc => ?_
    split
    · rename_i op hop
      have hlt := lt_of_token ht (ne_end_of_productOperator? hop)
      refine (hp after (Nat.lt_of_lt_of_le hlt hs) hc.reaches).andThen fun right s₁ h₁ hc₁ => ?_
      refine (exits_check_of_clear hc₁ fun m hm => ?_).andThen fun v s₂ h₂ hc₂ => ?_
      · obtain ⟨rfl, -⟩ := Calculation.eq_of_apply hm
        rfl
      · exact ih s₂ (by omega) v (by omega) hc₂.reaches
    · rename_i hop
      exact (exits_putBack h hn ht hop).andThen fun _ s _ hw => exits_ok left hw

theorem exits_term_of (hs : s.unread < n) (h : first.Reaches s) :
    (term b s).Exits (first.Waits (·.productOperator? = none)) := by
  rw [term]
  exact (hp s hs h).andThen fun left s' h' hc => exits_factors hp left (by omega) hc.reaches

/-- Behind a term no product goes on, and behind the last one no sum. -/
theorem exits_sums (left : Binary64) (hs : s.unread ≤ n) (h : first.Waits (·.productOperator? = none) s) :
    (sums b left s).Exits (first.Waits (· ∉ operators)) := by
  induction s using unread_induction generalizing left with
  | less s ih =>
    rw [sums]
    refine exits_withNext h.reaches fun t after ht hn hc => ?_
    split
    · rename_i op hop
      have hlt := lt_of_token ht (ne_end_of_sumOperator? hop)
      refine (exits_term_of hp (Nat.lt_of_lt_of_le hlt hs) hc.reaches).andThen fun right s' h' hw => ?_
      exact ih s' (by omega) _ (by omega) hw
    · rename_i hsum
      have hproduct : t.productOperator? = none := by
        obtain ⟨u, hback, hu⟩ := h
        obtain rfl := hback.eq_of_next hn
        exact hu
      have hends := Calculation.not_mem_operators.mpr ⟨hproduct, hsum⟩
      exact (exits_putBack h.reaches hn ht hends).andThen fun _ s _ hw => exits_ok left hw

theorem exits_expression_of (hs : s.unread < n) (h : first.Reaches s) :
    (expression b s).Exits (first.Waits (· ∉ operators)) := by
  rw [expression]
  exact (exits_term_of hp hs h).andThen fun left s' h' hw => exits_sums hp left (by omega) hw

theorem exits_rootCall (hs : s.unread < n) (h : first.Reaches s) : (rootCall b s).Exits first.Clear := by
  rw [rootCall]
  refine (exits_expect .opening h).andThen fun _ s₁ h₁ hc => ?_
  refine (exits_expression_of hp (by omega) hc.reaches).andThen fun v s₂ h₂ hw => ?_
  -- the token behind the argument waits already where the root does not exist
  refine (exits_check hw fun m hm => ?_).andThen fun w s₃ h₃ hw => ?_
  · obtain rfl := Calculation.eq_of_squareRoot hm
    rw [hw.isSome_held]
    rfl
  · exact (exits_expect .closing hw.reaches).andThen fun _ s _ hc => exits_ok w hc

theorem exits_powerCall (hs : s.unread < n) (h : first.Reaches s) : (powerCall b s).Exits first.Clear := by
  rw [powerCall]
  refine (exits_expect .opening h).andThen fun _ s₁ h₁ hc => ?_
  refine (exits_expression_of hp (by omega) hc.reaches).andThen fun base s₂ h₂ hw => ?_
  refine (exits_expect .comma hw.reaches).andThen fun _ s₃ h₃ hc => ?_
  refine (exits_exponent hc.reaches).andThen fun n s₄ h₄ hc => ?_
  exact (exits_expect .closing hc.reaches).andThen fun _ s _ hc => exits_ok _ hc

end

theorem exits_primary (h : first.Reaches s) : (primary b s).Exits first.Clear := by
  induction s using unread_induction with
  | less s ih =>
    rw [primary]
    refine exits_withNext h fun t after ht hn hc => ?_
    have hlt : t ≠ .endOfInput → after.unread < s.unread := lt_of_token ht
    show Reckoner.Exits _ _ _
    rw [Result.answer_within, Result.scanner_within]
    split
    · refine (exits_expression_of ih (hlt (by simp)) hc.reaches).andThen fun v s₁ h₁ hw => ?_
      exact (exits_expect .closing hw.reaches).andThen fun _ s _ hc => exits_ok v hc
    · exact exits_ok _ hc
    · exact exits_check_of_clear hc fun m hm => by rw [Calculation.eq_of_lookup hm]; rfl
    · exact (ih after (hlt (by simp)) hc.reaches).andThen fun v s _ hc => exits_ok _ hc
    · exact ih after (hlt (by simp)) hc.reaches
    · exact exits_rootCall ih (hlt (by simp)) hc.reaches
    · exact exits_powerCall ih (hlt (by simp)) hc.reaches
    · exact .early _ rfl hc.held
    · exact .early _ rfl hc.held

theorem exits_term (h : first.Reaches s) : (term b s).Exits (first.Waits (·.productOperator? = none)) :=
  exits_term_of (fun _ _ h => exits_primary h) (Nat.lt_succ_self _) h

theorem exits_expression (h : first.Reaches s) : (expression b s).Exits (first.Waits (· ∉ operators)) :=
  exits_expression_of (fun _ _ h => exits_primary h) (Nat.lt_succ_self _) h

end Production

end Reckoner
