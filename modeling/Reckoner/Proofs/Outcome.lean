/-
  Reckoner.Proofs.Outcome — what operations leave behind.

  Whatever the source, an operation fails only for a reason: a read of the source failed, or
  something was read that is a mistake. One token is never put back on top of another. What is
  read is spelled as the lexer spells it, so that a mistake names variables and no blanks.

  - `outcome_statement`, `outcome_nextValue`: a statement binds the name of its declaration to
    its value, or nothing; one that fails binds nothing.
-/

import Reckoner.Proofs.Descent

namespace Reckoner

variable {reads : List Read}

/-! ## Failures and where they come from -/

/-- The names a mistake mentions are those of variables, and a stray character is no blank. -/
def Mistake.Spelled : Mistake → Prop
  | strayCharacter c => isBlank c = false
  | expected _ found => found.Spelled
  | operandExpected found => found.Spelled
  | nameExpected found => found.Spelled
  | exponentNoNumber found => found.Spelled
  | equalsMissing name => IsVariable name
  | declaredTwice name => IsVariable name
  | undeclared name => IsVariable name
  | _ => True

/-- A failure while `reads` were read: one of them, or a mistake in what they gave. -/
def Failure.Stems (reads : List Read) : Failure → Prop
  | mistake _ m => m.Spelled
  | heldTwice _ => False
  | io message => .failure message ∈ reads

theorem Failure.Stems.mono {rs : List Read} (h : rs <:+ reads) {f : Failure} (hf : f.Stems rs) : f.Stems reads := by
  cases f with
  | mistake l m => exact hf
  | heldTwice l => exact hf
  | io message => exact h.subset hf

/-! ## Scanners -/

namespace Scanner

/-- A scanner that has read the first part of `reads`. -/
structure Kept (reads : List Read) (s : Scanner) : Prop where
  behind : s.reads <:+ reads
  held : ∀ t, s.held = some t → t.Spelled

/-- The answer of an operation on such a scanner, and the scanner it leaves. -/
structure Lawful (reads : List Read) {α : Type} (a : Except Failure α × Scanner) : Prop where
  kept : a.2.Kept reads
  failure : ∀ f, a.1 = .error f → f.Stems reads

/-- A failure that is passed on. -/
theorem Lawful.passed {α β : Type} {f : Failure} {s : Scanner} (h : Lawful (α := α) reads (.error f, s)) :
    Lawful (α := β) reads (.error f, s) := by
  refine ⟨h.kept, ?_⟩
  intro g hg
  obtain rfl := Except.error.inj hg
  exact h.failure f rfl

theorem kept_of_held_none {s : Scanner} (h : s.reads <:+ reads) (hn : s.held = none) : s.Kept reads := by
  refine ⟨h, ?_⟩
  intro t ht
  rw [hn] at ht
  cases ht

theorem kept_hold {s : Scanner} (h : s.Kept reads) {t : Token} (ht : t.Spelled) :
    ({ s with held := some t } : Scanner).Kept reads := by
  refine ⟨h.behind, ?_⟩
  intro u hu
  obtain rfl := Option.some.inj hu
  exact ht

theorem spelled_advance {ended : Bool} {text : List Char} {line : Nat} {rs : List Read} {t : Token}
    (h : (advance ended text line rs).1 = .ok t) : t.Spelled := by
  fun_induction advance ended text line rs with
  | case1 text line rs u rest hn =>
    obtain rfl := Except.ok.inj h
    exact Lexeme.spelled_of_next? hn
  | case2 => cases h
  | case3 =>
    obtain rfl := Except.ok.inj h
    trivial
  | case4 => cases h
  | case5 text line next rs hn ih => exact ih h

theorem stems_advance {ended : Bool} {text : List Char} {line : Nat} {rs : List Read} {f : Failure}
    (h : (advance ended text line rs).1 = .error f) : f.Stems rs := by
  fun_induction advance ended text line rs with
  | case1 => cases h
  | case2 text line rs c rest hn =>
    obtain rfl := Except.error.inj h
    exact Lexeme.spelled_of_next? hn
  | case3 => cases h
  | case4 text line message rs hn =>
    obtain rfl := Except.error.inj h
    exact List.mem_cons_self
  | case5 text line next rs hn ih =>
    have hs := ih h
    cases f with
    | mistake l m => exact hs
    | heldTwice l => exact hs
    | io message => exact List.mem_cons_of_mem _ hs

theorem lawful_next {s : Scanner} (h : s.Kept reads) : Lawful reads s.next := by
  refine ⟨kept_of_held_none ((suffix_reads_next s).trans h.behind) (held_next s), ?_⟩
  intro f hf
  unfold next at hf
  split at hf
  · cases hf
  · exact (stems_advance hf).mono h.behind

theorem spelled_next {s : Scanner} (h : s.Kept reads) {t : Token} (ht : s.next.1 = .ok t) : t.Spelled := by
  unfold next at ht
  split at ht
  · rename_i u hu
    obtain rfl := Except.ok.inj ht
    exact h.held u hu
  · exact spelled_advance ht

theorem stems_seek {c : Char} {ended : Bool} {text : List Char} {line : Nat} {rs : List Read} {f : Failure}
    (h : (seek c ended text line rs).1 = .error f) : ∃ message, f = .io message ∧ .failure message ∈ rs := by
  fun_induction seek c ended text line rs with
  | case1 => cases h
  | case2 => cases h
  | case3 text line message rs hn => exact ⟨message, (Except.error.inj h).symm, List.mem_cons_self⟩
  | case4 text line next rs hn ih =>
    obtain ⟨message, hf, hm⟩ := ih h
    exact ⟨message, hf, List.mem_cons_of_mem _ hm⟩

theorem held_seek (c : Char) (ended : Bool) (text : List Char) (line : Nat) (rs : List Read) :
    (seek c ended text line rs).2.held = none := by
  fun_induction seek c ended text line rs with
  | case1 => rfl
  | case2 => rfl
  | case3 => rfl
  | case4 text line next rs hn ih => exact ih

theorem held_skipPast (c : Char) (s : Scanner) : (s.skipPast c).2.held = none := by
  unfold skipPast
  split
  · split
    · rfl
    · exact held_seek _ _ _ _ _
  · exact held_seek _ _ _ _ _

theorem kept_skipPast {s : Scanner} (h : s.Kept reads) (c : Char) : (s.skipPast c).2.Kept reads :=
  kept_of_held_none ((suffix_reads_skipPast c s).trans h.behind) (held_skipPast c s)

/-- Skipping fails only with a read. -/
theorem stems_skipPast {s : Scanner} (h : s.Kept reads) {c : Char} {f : Failure}
    (hf : (s.skipPast c).1 = .error f) :
    ∃ message, f = .io message ∧ .failure message ∈ reads := by
  have hs : ∃ message, f = .io message ∧ .failure message ∈ s.reads := by
    unfold skipPast at hf
    split at hf
    · split at hf
      · cases hf
      · exact stems_seek hf
    · exact stems_seek hf
  obtain ⟨message, he, hm⟩ := hs
  exact ⟨message, he, h.behind.subset hm⟩

end Scanner

/-! ## Calculations -/

namespace Calculation

variable {b : Bindings} {level : Level}

/-- The mistakes that a calculation can make at a token. -/
inductive MadeAt (t : Token) : Mistake → Prop
  | inputEnded (h : t = .endOfInput) : MadeAt t .inputEnded
  | expected (wanted : Symbol) (h : t ≠ .endOfInput) : MadeAt t (.expected wanted t)
  | operandExpected (h : t ≠ .endOfInput) : MadeAt t (.operandExpected t)
  | exponentNoNumber : MadeAt t (.exponentNoNumber t)
  | undeclared (n : String) (h : t = .name n) : MadeAt t (.undeclared n)
  | divisionByZero : MadeAt t .divisionByZero
  | negativeRoot (v : Binary64) : MadeAt t (.negativeRoot v)
  | exponentNotWhole (v : Binary64) : MadeAt t (.exponentNotWhole v)
  | exponentNegative (n : Int) : MadeAt t (.exponentNegative n)
  | exponentTooLarge (v : Binary64) : MadeAt t (.exponentTooLarge v)

/-- If the step makes a mistake, it is one that can be made at the token. -/
def Step.Blames (t : Token) : Step → Prop
  | .stop (.error m) _ => MadeAt t m
  | _ => True

variable {t : Token}

theorem blames_expect (s : Symbol) {next : Step} (h : next.Blames t) : (expect s t next).Blames t := by
  unfold expect
  split
  · exact h
  · split
    · rename_i he
      exact .inputEnded he
    · rename_i he
      exact .expected s he

theorem madeAt_apply {op : ProductOperator} {v w : Binary64} {m : Mistake} (h : op.apply v w = .error m) :
    MadeAt t m := by
  obtain ⟨rfl, -⟩ := eq_of_apply h
  exact .divisionByZero

theorem blames_complete (q : Pending) (outer : Enclosing) (v : Binary64) : (complete level q outer v).Blames t := by
  unfold complete
  dsimp only
  split
  · rename_i m hm
    split at hm
    · exact madeAt_apply hm
    · cases hm
  · split <;> trivial

theorem madeAt_toExponent {v : Binary64} {m : Mistake} (h : v.toExponent = .error m) : MadeAt t m := by
  rcases eq_of_toExponent h with rfl | rfl | ⟨n, rfl⟩
  · exact .exponentNotWhole _
  · exact .exponentTooLarge _
  · exact .exponentNegative _

theorem blames_operandStep (q : Pending) (outer : Enclosing) (t : Token) :
    (operandStep b level q outer t).Blames t := by
  unfold operandStep
  split
  · exact blames_complete _ _ _
  · rename_i n
    split
    · exact blames_complete _ _ _
    · rename_i m hm
      obtain rfl := eq_of_lookup hm
      exact .undeclared n rfl
  · trivial
  · trivial
  · trivial
  · trivial
  · trivial
  · exact .inputEnded rfl
  · rename_i he
    exact .operandExpected he

theorem blames_enclose (v : Binary64) (outer : Enclosing) : (enclose level v t outer).Blames t := by
  unfold enclose
  split
  · trivial
  · exact blames_expect _ (blames_complete _ _ _)
  · split
    · rename_i hm
      obtain rfl := eq_of_squareRoot hm
      exact .negativeRoot v
    · exact blames_expect _ (blames_complete _ _ _)
  · exact blames_expect _ trivial

theorem blames_operatorStep (sum : Option (Binary64 × SumOperator)) (v : Binary64) (outer : Enclosing) :
    (operatorStep level sum v outer t).Blames t := by
  unfold operatorStep
  split
  · trivial
  · split
    · trivial
    · dsimp only
      split
      · trivial
      · exact blames_enclose _ _

theorem blames_exponentStep (base : Binary64) (q : Pending) (outer : Enclosing) (t : Token) :
    (exponentStep b base q outer t).Blames t := by
  unfold exponentStep
  split
  · rename_i m hm
    unfold Production.exponentValue at hm
    split at hm
    · exact madeAt_toExponent hm
    · rename_i n
      rcases hn : b.lookup n with m' | w
      · rw [hn] at hm
        obtain rfl := Except.error.inj hm
        obtain rfl := eq_of_lookup hn
        exact .undeclared n rfl
      · rw [hn] at hm
        exact madeAt_toExponent hm
    · obtain rfl := Except.error.inj hm
      exact .exponentNoNumber
  · trivial

/-- A token that is no part of the expression is what the mistake is about. -/
theorem blames_step (s : State) (t : Token) : (step b level s t).Blames t := by
  cases s with
  | operand q outer => exact blames_operandStep q outer t
  | opening f q outer => exact blames_expect _ trivial
  | operator sum v outer => exact blames_operatorStep sum v outer
  | exponent base q outer => exact blames_exponentStep base q outer t
  | closing base n q outer => exact blames_expect _ (blames_complete _ _ _)

theorem MadeAt.spelled {m : Mistake} (h : MadeAt t m) (ht : t.Spelled) : m.Spelled := by
  cases h with
  | expected w _ => exact ht
  | operandExpected _ => exact ht
  | exponentNoNumber => exact ht
  | undeclared n hn =>
    subst hn
    exact ht
  | _ => trivial

open Scanner

theorem lawful_finish {s : Scanner} (hs : s.Kept reads) (hheld : s.held = none) {t : Token} (ht : t.Spelled)
    {result : Except Mistake Binary64} {left : Bool} (hr : (Step.stop result left).Blames t) :
    Lawful reads (finish result left t s) := by
  have hf : ∀ f, result.mapError (Failure.mistake s.line) = .error f → f.Stems reads := by
    intro f hf
    cases result with
    | error m =>
      obtain rfl := Except.error.inj hf
      exact MadeAt.spelled hr ht
    | ok v => cases hf
  unfold finish
  cases left with
  | false => exact ⟨hs, hf⟩
  | true =>
    simp only [if_true, putBack_of_held_none hheld]
    exact ⟨kept_hold hs ht, hf⟩

theorem lawful_run {state : State} {s : Scanner} (hs : s.Kept reads) : Lawful reads (run b level state s) := by
  fun_induction run b level state s with
  | case1 state s f after hn =>
    have h := lawful_next hs
    rw [hn] at h
    exact h.passed
  | case2 state s t after hn next hstep ih =>
    have h := (lawful_next hs).kept
    rw [hn] at h
    exact ih h
  | case3 state s t after hn result left hstep =>
    have h := (lawful_next hs).kept
    have ht := spelled_next hs (t := t) (by rw [hn])
    have hheld := held_next s
    rw [hn] at h hheld
    exact lawful_finish h hheld ht (hstep ▸ blames_step state t)

end Calculation

/-! ## Statements -/

/-- The variables behind a statement of value `v`: as before, or with one more of that value. -/
def Bindings.Extends (b : Bindings) (v : Binary64) (after : Bindings) : Prop :=
  after = b ∨ ∃ name, IsVariable name ∧ b.isBound name = false ∧ after = ⟨b.toList ++ [⟨name, v⟩]⟩

namespace Desk

open Scanner

/-- The answer of a statement at a desk with variables `b`, and the desk it leaves. -/
structure Outcome (reads : List Read) (b : Bindings) (a : Except Failure Binary64 × Desk) : Prop where
  kept : a.2.scanner.Kept reads
  failure : ∀ f, a.1 = .error f → f.Stems reads ∧ a.2.bindings = b
  value : ∀ v, a.1 = .ok v → b.Extends v a.2.bindings

/-- A statement that fails leaves the variables as they were. -/
theorem outcome_of_error {d : Desk} {s : Scanner} (h : s.Kept reads) {f : Failure} (hf : f.Stems reads) :
    Outcome reads d.bindings (.error f, { d with scanner := s }) := by
  refine ⟨h, ?_, nofun⟩
  intro g hg
  obtain rfl := Except.error.inj hg
  exact ⟨hf, rfl⟩

theorem outcome_calculate {d : Desk} (h : d.scanner.Kept reads) (level : Calculation.Level) :
    Outcome reads d.bindings (d.calculate level) ∧ (d.calculate level).2.bindings = d.bindings := by
  have hr : Lawful reads (Calculation.run d.bindings level .start d.scanner) := Calculation.lawful_run h
  rw [calculate_eq_run]
  refine ⟨⟨hr.kept, ?_, ?_⟩, rfl⟩
  · intro f hf
    exact ⟨hr.failure f hf, rfl⟩
  · intro v hv
    exact .inl rfl

theorem outcome_bindTo {d : Desk} (h : d.scanner.Kept reads) {name : String} (hn : IsVariable name) :
    Outcome reads d.bindings (d.bindTo name) := by
  obtain ⟨ho, hb⟩ := outcome_calculate h .expression
  rcases hc : d.calculate .expression with ⟨f | v, after⟩
  · rw [hc] at ho
    rwa [bindTo_of_error hc]
  · rw [hc] at ho hb
    rw [bindTo_of_ok hc]
    rcases hbound : d.bindings.isBound name with _ | _
    · refine ⟨ho.kept, ?_, ?_⟩
      · intro f hf
        cases hf
      · intro w hw
        obtain rfl := Except.ok.inj hw
        exact .inr ⟨name, hn, hbound, rfl⟩
    · refine ⟨ho.kept, ?_, nofun⟩
      intro f hf
      obtain rfl := Except.error.inj hf
      exact ⟨hn, hb⟩

theorem outcome_declaration {d : Desk} (h : d.scanner.Kept reads) : Outcome reads d.bindings d.declaration := by
  have hlaw := lawful_next h
  have hspelled := fun t => spelled_next h (t := t)
  unfold declaration
  split
  · rename_i f s hn
    rw [hn] at hlaw
    exact outcome_of_error hlaw.kept (hlaw.failure f rfl)
  · rename_i name s hn
    have hname : IsVariable name := hspelled (.name name) (by rw [hn])
    rw [hn] at hlaw
    have hlaw' := lawful_next hlaw.kept
    split
    · rename_i f s' hn'
      rw [hn'] at hlaw'
      exact outcome_of_error hlaw'.kept (hlaw'.failure f rfl)
    · rename_i t s' hn'
      rw [hn'] at hlaw'
      split
      · exact outcome_bindTo (d := { d with scanner := s' }) hlaw'.kept hname
      · exact outcome_of_error hlaw'.kept hname
  · rename_i s hn
    rw [hn] at hlaw
    exact outcome_of_error hlaw.kept trivial
  · rename_i t s hname hend hn
    have ht := hspelled t (by rw [hn])
    rw [hn] at hlaw
    exact outcome_of_error hlaw.kept ht

theorem outcome_statement {d : Desk} (h : d.scanner.Kept reads) : Outcome reads d.bindings d.statement := by
  have hlaw := lawful_next h
  rcases hn : d.scanner.next with ⟨f | t, s⟩
  · rw [hn] at hlaw
    rw [statement_of_error hn]
    exact outcome_of_error hlaw.kept (hlaw.failure f rfl)
  have ht : t.Spelled := spelled_next h (by rw [hn])
  rw [hn] at hlaw
  by_cases hd : t = .keyword .declare
  · subst hd
    rw [statement_of_declare hn]
    exact outcome_declaration (d := { d with scanner := s }) hlaw.kept
  · rw [statement_of_token hn hd]
    exact (outcome_calculate (d := { d with scanner := { s with held := some t } }) (kept_hold hlaw.kept ht) _).1

theorem lawful_firstToken {s : Scanner} (h : s.Kept reads) : Lawful reads (firstToken s) := by
  fun_induction firstToken s with
  | case1 s f after hn =>
    have hl := lawful_next h
    rwa [hn] at hl
  | case2 s after hn ih =>
    have hl := lawful_next h
    rw [hn] at hl
    exact ih hl.kept
  | case3 s t after hn =>
    have hl := lawful_next h
    rwa [hn] at hl

theorem spelled_firstToken {s : Scanner} (h : s.Kept reads) {t : Token} (ht : (firstToken s).1 = .ok t) :
    t.Spelled := by
  fun_induction firstToken s with
  | case1 => cases ht
  | case2 s after hn ih =>
    have hl := lawful_next h
    rw [hn] at hl
    exact ih hl.kept ht
  | case3 s u after hn =>
    obtain rfl := Except.ok.inj ht
    exact spelled_next h (by rw [hn])

/-- The next value of a desk with variables `b`, if there is one, and the desk behind it. -/
structure NextOutcome (reads : List Read) (b : Bindings) (a : Except Failure (Option Binary64) × Desk) : Prop where
  kept : a.2.scanner.Kept reads
  failure : ∀ f, a.1 = .error f → f.Stems reads ∧ a.2.bindings = b
  none : a.1 = .ok none → a.2.bindings = b
  value : ∀ v, a.1 = .ok (some v) → b.Extends v a.2.bindings

theorem outcome_nextValue {d : Desk} (h : d.scanner.Kept reads) : NextOutcome reads d.bindings d.nextValue := by
  have hlaw := lawful_firstToken h
  rcases hf : firstToken d.scanner with ⟨f | t, s⟩
  · rw [hf] at hlaw
    rw [nextValue_of_error hf]
    refine ⟨hlaw.kept, ?_, nofun, nofun⟩
    intro g hg
    obtain rfl := Except.error.inj hg
    exact ⟨hlaw.failure f rfl, rfl⟩
  have ht : t.Spelled := spelled_firstToken h (by rw [hf])
  rw [hf] at hlaw
  by_cases hq : t = .keyword .exit ∨ t = .endOfInput
  · rw [nextValue_of_end hf hq]
    refine ⟨hlaw.kept, ?_, fun _ => rfl, ?_⟩
    · intro f hf
      cases hf
    · intro v hv
      cases hv
  rw [nextValue_of_token hf hq]
  have ho := outcome_statement (d := { d with scanner := { s with held := some t } }) (kept_hold hlaw.kept ht)
  rcases hs : statement { d with scanner := { s with held := some t } } with ⟨f | v, after⟩
  · rw [hs] at ho
    refine ⟨ho.kept, ?_, nofun, nofun⟩
    intro g hg
    obtain rfl := Except.error.inj hg
    exact ho.failure f rfl
  · rw [hs] at ho
    refine ⟨ho.kept, ?_, nofun, ?_⟩
    · intro f hf
      cases hf
    · intro w hw
      obtain rfl := Option.some.inj (Except.ok.inj hw)
      exact ho.value v rfl

end Desk

end Reckoner
