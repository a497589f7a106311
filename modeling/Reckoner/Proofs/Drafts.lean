/-
  Reckoner.Proofs.Drafts — statements that are read in part.

  A draft is the left part of a derivation tree: whole trees for what is complete, and what waits
  for more. It has a yield, and a token goes on with it in one way at most.

  - `viable_iff`: the yields of drafts are exactly the beginnings of statements.
  - `viable_append_iff`: what a token must be so that a statement may begin with what was read and
    that token.
  - `complete_iff`: what was read is a statement exactly if nothing in it waits for more.
-/

import Reckoner.Proofs.Calculation

namespace Reckoner

/-- The word before the arguments of a function. -/
def Calculation.BuiltIn.keyword : Calculation.BuiltIn → Keyword
  | root => .root
  | power => .power

namespace Grammar

open Calculation (Bracket BuiltIn eq_of_productOperator? eq_of_sumOperator?)

/-! ## Drafts -/

/-- What waits for a primary: the terms before its own, the factors of its own, and signs. -/
structure Waiting where
  sum : Option (Expression × SumOperator) := none
  product : Option (Term × ProductOperator) := none
  signs : List SumOperator := []

/-- The brackets around what is read now, innermost first, each with what waits for it. -/
abbrev Around := List (Bracket × Waiting)

/-- The left part of an expression. -/
inductive Begun where
  /-- A primary is due. -/
  | operand (q : Waiting) (outer : Around)
  /-- The bracket before a function's arguments is due. -/
  | opening (f : BuiltIn) (q : Waiting) (outer : Around)
  /-- A term that may be the last one. -/
  | operator (sum : Option (Expression × SumOperator)) (t : Term) (outer : Around)
  /-- The exponent of a power is due. -/
  | exponent (base : Expression) (q : Waiting) (outer : Around)
  /-- The bracket behind the exponent is due. -/
  | closing (base : Expression) (x : Exponent) (q : Waiting) (outer : Around)

/-- The left part of a statement. -/
inductive Draft where
  | start
  /-- The mark of a declaration. -/
  | declared
  /-- The mark and the name. -/
  | named (name : String)
  /-- A part of an expression, which is to be the value of a name or stands by itself. -/
  | within (name : Option String) (e : Begun)

/-! ## Yields -/

def signsYield (signs : List SumOperator) : List Token := signs.map fun op => .symbol op.symbol

def sumYield : Option (Expression × SumOperator) → List Token
  | none => []
  | some (e, op) => e.yield ++ [.symbol op.symbol]

def productYield : Option (Term × ProductOperator) → List Token
  | none => []
  | some (t, op) => t.yield ++ [.symbol op.symbol]

def Waiting.yield (q : Waiting) : List Token := sumYield q.sum ++ (productYield q.product ++ signsYield q.signs)

/-- A bracket with the word before it. -/
def opened : Bracket → List Token
  | .group => [.symbol .opening]
  | .argument f => [.keyword f.keyword, .symbol .opening]

def aroundYield : Around → List Token
  | [] => []
  | (k, q) :: outer => aroundYield outer ++ (q.yield ++ opened k)

/-- The tokens of a power up to the comma. -/
def baseYield (base : Expression) : List Token :=
  .keyword .power :: .symbol .opening :: (base.yield ++ [.symbol .comma])

def Begun.yield : Begun → List Token
  | operand q outer => aroundYield outer ++ q.yield
  | opening f q outer => aroundYield outer ++ (q.yield ++ [.keyword f.keyword])
  | operator sum t outer => aroundYield outer ++ (sumYield sum ++ t.yield)
  | exponent base q outer => aroundYield outer ++ (q.yield ++ baseYield base)
  | closing base x q outer => aroundYield outer ++ (q.yield ++ (baseYield base ++ x.yield))

def Draft.yield : Draft → List Token
  | start => []
  | declared => [.keyword .declare]
  | named name => [.keyword .declare, .name name]
  | within none e => e.yield
  | within (some name) e => .keyword .declare :: .name name :: .symbol .equals :: e.yield

/-! ## What a draft is completed to -/

/-- A primary with signs before it. -/
def signed : List SumOperator → Primary → Primary
  | [], p => p
  | .plus :: signs, p => .plus (signed signs p)
  | .minus :: signs, p => .minus (signed signs p)

/-- The term that ends with the primary. -/
def Waiting.term (q : Waiting) (p : Primary) : Term :=
  match q.product with
  | some (t, op) => t.snoc op (signed q.signs p)
  | none => .of (signed q.signs p) .none

/-- The expression that ends with the term. -/
def whole (sum : Option (Expression × SumOperator)) (t : Term) : Expression :=
  match sum with
  | some (e, op) => e.snoc op t
  | none => .of t .none

def Begun.start : Begun := .operand {} []

/-- The primary has been read for which `q` waited. -/
def Begun.complete (q : Waiting) (outer : Around) (p : Primary) : Begun := .operator q.sum (q.term p) outer

@[simp] theorem yield_signed (signs : List SumOperator) (p : Primary) :
    (signed signs p).yield = signsYield signs ++ p.yield := by
  induction signs with
  | nil => rfl
  | cons op signs ih =>
    cases op with
    | plus => exact congrArg (_ :: ·) ih
    | minus => exact congrArg (_ :: ·) ih

theorem signed_append (signs : List SumOperator) (op : SumOperator) (p : Primary) :
    signed (signs ++ [op]) p = signed signs (signed [op] p) := by
  induction signs with
  | nil => rfl
  | cons first signs ih =>
    cases first with
    | plus => exact congrArg Primary.plus ih
    | minus => exact congrArg Primary.minus ih

@[simp] theorem yield_whole (sum : Option (Expression × SumOperator)) (t : Term) :
    (whole sum t).yield = sumYield sum ++ t.yield := by
  rcases sum with _ | ⟨e, op⟩
  · simp [whole, sumYield, Expression.yield, Sums.yield]
  · simp [whole, sumYield, Expression.yield_snoc]

theorem yield_term (q : Waiting) (p : Primary) :
    (q.term p).yield = productYield q.product ++ (signsYield q.signs ++ p.yield) := by
  obtain ⟨sum, _ | ⟨t, op⟩, signs⟩ := q
  · simp [Waiting.term, productYield, Term.yield, Products.yield]
  · simp [Waiting.term, productYield, Term.yield_snoc]

theorem yield_complete (q : Waiting) (outer : Around) (p : Primary) :
    (Begun.complete q outer p).yield = aroundYield outer ++ (q.yield ++ p.yield) := by
  simp [Begun.complete, Begun.yield, yield_term, Waiting.yield]

/-! ## Every draft is the beginning of a statement -/

/-- A statement may begin with these tokens. -/
def Viable (w : List Token) : Prop := ∃ tree : Statement, w <+: tree.yield

def Complete (w : List Token) : Prop := ∃ tree : Statement, tree.yield = w

/-- The primary that an expression in brackets is completed to. -/
def closed (e : Expression) : Bracket → Primary
  | .group => .group e
  | .argument .root => .root e
  | .argument .power => .power e (.number .zero)

theorem prefix_closed (e : Expression) (k : Bracket) : opened k ++ e.yield <+: (closed e k).yield := by
  rcases k with _ | _ | _
  · exact ⟨[.symbol .closing], by simp [opened, closed, Primary.yield]⟩
  · exact ⟨[.symbol .closing], by simp [opened, closed, Primary.yield, BuiltIn.keyword]⟩
  · refine ⟨.symbol .comma :: ((Exponent.number .zero).yield ++ [.symbol .closing]), ?_⟩
    simp [opened, closed, Primary.yield, BuiltIn.keyword]

/-- An expression in brackets is completed from the inside. -/
theorem exists_expression (outer : Around) (e : Expression) :
    ∃ all : Expression, aroundYield outer ++ e.yield <+: all.yield := by
  induction outer generalizing e with
  | nil => exact ⟨e, List.prefix_refl _⟩
  | cons x outer ih =>
    obtain ⟨k, q⟩ := x
    obtain ⟨all, h⟩ := ih (whole q.sum (q.term (closed e k)))
    refine ⟨all, List.IsPrefix.trans ?_ h⟩
    have hk := prefix_closed e k
    simpa [aroundYield, yield_term, Waiting.yield] using hk

theorem exists_of_primary (q : Waiting) (outer : Around) (p : Primary) :
    ∃ all : Expression, aroundYield outer ++ (q.yield ++ p.yield) <+: all.yield := by
  have h := exists_expression outer (whole q.sum (q.term p))
  simpa [yield_term, Waiting.yield] using h

theorem Begun.exists_expression (e : Begun) : ∃ all : Expression, e.yield <+: all.yield := by
  -- what is due is supplied: a number, or the rest of the primary
  suffices h : ∃ rest : List Token, ∃ all : Expression, e.yield ++ rest <+: all.yield by
    obtain ⟨rest, all, hp⟩ := h
    exact ⟨all, (List.prefix_append _ _).trans hp⟩
  let one : Expression := .of (.of (.number .zero) .none) .none
  cases e with
  | operand q outer =>
    have h := exists_of_primary q outer (.number .zero)
    exact ⟨[.number .zero], by simpa [yield, Primary.yield] using h⟩
  | opening f q outer =>
    have h := exists_of_primary q outer (closed one (.argument f))
    obtain ⟨rest, hr⟩ := prefix_closed one (.argument f)
    rw [← hr] at h
    exact ⟨.symbol .opening :: (one.yield ++ rest), by simpa [yield, opened] using h⟩
  | operator sum t outer =>
    have h := Grammar.exists_expression outer (whole sum t)
    exact ⟨[], by simpa [yield] using h⟩
  | exponent base q outer =>
    have h := exists_of_primary q outer (.power base (.number .zero))
    exact ⟨[.number .zero, .symbol .closing],
      by simpa [yield, baseYield, Primary.yield, Exponent.yield] using h⟩
  | closing base x q outer =>
    have h := exists_of_primary q outer (.power base x)
    exact ⟨[.symbol .closing], by simpa [yield, baseYield, Primary.yield] using h⟩

theorem viable_of_prefix {w v : List Token} (h : w <+: v) (hv : Viable v) : Viable w := by
  obtain ⟨tree, ht⟩ := hv
  exact ⟨tree, h.trans ht⟩

theorem viable_declaration (name : String) {w : List Token} {e : Expression} (h : w <+: e.yield) :
    Viable (.keyword .declare :: .name name :: .symbol .equals :: w) := by
  refine ⟨.declaration name e, ?_⟩
  simpa [Statement.yield] using h

theorem viable_yield (draft : Draft) : Viable draft.yield := by
  obtain ⟨e, he⟩ := Begun.start.exists_expression
  cases draft with
  | start => exact ⟨.expression e, List.nil_prefix⟩
  | declared => exact viable_of_prefix ⟨_, rfl⟩ (viable_declaration "x" he)
  | named name => exact viable_of_prefix ⟨_, rfl⟩ (viable_declaration name he)
  | within name begun =>
    obtain ⟨e, he⟩ := begun.exists_expression
    rcases name with _ | name
    · exact ⟨.expression e, he⟩
    · exact viable_declaration name he

/-! ## Going on with a draft -/

namespace Begun

def operandNext? (q : Waiting) (outer : Around) : Token → Option Begun
  | .number v => some (complete q outer (.number v))
  | .name n => some (complete q outer (.name n))
  | .symbol .minus => some (.operand { q with signs := q.signs ++ [.minus] } outer)
  | .symbol .plus => some (.operand { q with signs := q.signs ++ [.plus] } outer)
  | .symbol .opening => some (.operand {} ((.group, q) :: outer))
  | .keyword .root => some (.opening .root q outer)
  | .keyword .power => some (.opening .power q outer)
  | _ => none

/-- The token behind an expression in brackets. -/
def encloseNext? (e : Expression) (t : Token) : Around → Option Begun
  | [] => none
  | (.group, q) :: outer => if t = .symbol .closing then some (complete q outer (.group e)) else none
  | (.argument .root, q) :: outer => if t = .symbol .closing then some (complete q outer (.root e)) else none
  | (.argument .power, q) :: outer => if t = .symbol .comma then some (.exponent e q outer) else none

def operatorNext? (sum : Option (Expression × SumOperator)) (left : Term) (outer : Around) (t : Token) :
    Option Begun :=
  match t.productOperator? with
  | some op => some (.operand { sum, product := some (left, op) } outer)
  | none =>
    match t.sumOperator? with
    | some op => some (.operand { sum := some (whole sum left, op) } outer)
    | none => encloseNext? (whole sum left) t outer

def exponentNext? (base : Expression) (q : Waiting) (outer : Around) : Token → Option Begun
  | .number v => some (.closing base (.number v) q outer)
  | .name n => some (.closing base (.name n) q outer)
  | _ => none

/-- What a token makes of the left part of an expression, if it goes on with it. -/
def next? (e : Begun) (t : Token) : Option Begun :=
  match e with
  | operand q outer => operandNext? q outer t
  | opening f q outer => if t = .symbol .opening then some (.operand {} ((.argument f, q) :: outer)) else none
  | operator sum left outer => operatorNext? sum left outer t
  | exponent base q outer => exponentNext? base q outer t
  | closing base x q outer => if t = .symbol .closing then some (complete q outer (.power base x)) else none

end Begun

namespace Draft

/-- What a token makes of the left part of a statement, if it goes on with it. -/
def next? (draft : Draft) (t : Token) : Option Draft :=
  match draft with
  | start => if t = .keyword .declare then some .declared else (Begun.start.next? t).map (.within none)
  | declared =>
    match t with
    | .name n => some (.named n)
    | _ => none
  | named name => if t = .symbol .equals then some (.within (some name) .start) else none
  | within name e => (e.next? t).map (.within name)

/-- Nothing waits for more. -/
def IsWhole : Draft → Prop
  | within _ (.operator _ _ []) => True
  | _ => False

def read (draft : Draft) (w : List Token) : Option Draft := w.foldlM next? draft

end Draft

namespace Begun

def read (e : Begun) (w : List Token) : Option Begun := w.foldlM next? e

theorem yield_operandNext? {q : Waiting} {outer : Around} {t : Token} {next : Begun}
    (h : operandNext? q outer t = some next) : next.yield = aroundYield outer ++ (q.yield ++ [t]) := by
  unfold operandNext? at h
  split at h
  · obtain rfl := Option.some.inj h
    exact yield_complete _ _ _
  · obtain rfl := Option.some.inj h
    exact yield_complete _ _ _
  · obtain rfl := Option.some.inj h
    simp [yield, Waiting.yield, signsYield, SumOperator.symbol]
  · obtain rfl := Option.some.inj h
    simp [yield, Waiting.yield, signsYield, SumOperator.symbol]
  · obtain rfl := Option.some.inj h
    simp [yield, aroundYield, opened, Waiting.yield, signsYield, sumYield, productYield]
  · obtain rfl := Option.some.inj h
    rfl
  · obtain rfl := Option.some.inj h
    rfl
  · cases h

theorem yield_encloseNext? {e : Expression} {outer : Around} {t : Token} {next : Begun}
    (h : encloseNext? e t outer = some next) : next.yield = aroundYield outer ++ (e.yield ++ [t]) := by
  unfold encloseNext? at h
  split at h
  · cases h
  · split at h
    · obtain rfl := Option.some.inj h
      rename_i ht
      simp [yield_complete, aroundYield, opened, Primary.yield, ht]
    · cases h
  · split at h
    · obtain rfl := Option.some.inj h
      rename_i ht
      simp [yield_complete, aroundYield, opened, Primary.yield, ht, BuiltIn.keyword]
    · cases h
  · split at h
    · obtain rfl := Option.some.inj h
      rename_i ht
      simp [yield, baseYield, aroundYield, opened, ht, BuiltIn.keyword]
    · cases h

theorem yield_operatorNext? {sum : Option (Expression × SumOperator)} {left : Term} {outer : Around} {t : Token}
    {next : Begun} (h : operatorNext? sum left outer t = some next) :
    next.yield = aroundYield outer ++ (sumYield sum ++ (left.yield ++ [t])) := by
  unfold operatorNext? at h
  split at h
  · rename_i op hop
    obtain rfl := Option.some.inj h
    simp [yield, Waiting.yield, productYield, signsYield, eq_of_productOperator? hop]
  · split at h
    · rename_i op hop
      obtain rfl := Option.some.inj h
      simp [yield, Waiting.yield, sumYield, productYield, signsYield, eq_of_sumOperator? hop]
    · have hy := yield_encloseNext? h
      simpa using hy

/-- A draft grows by the token that goes on with it. -/
theorem yield_next? {e next : Begun} {t : Token} (h : e.next? t = some next) : next.yield = e.yield ++ [t] := by
  cases e with
  | operand q outer =>
    have hy := yield_operandNext? h
    simpa [yield] using hy
  | opening f q outer =>
    simp only [next?] at h
    split at h
    · rename_i ht
      obtain rfl := Option.some.inj h
      simp [yield, aroundYield, opened, Waiting.yield, signsYield, sumYield, productYield, ht]
    · cases h
  | operator sum left outer =>
    have hy := yield_operatorNext? h
    simpa [yield] using hy
  | exponent base q outer =>
    simp only [next?] at h
    unfold exponentNext? at h
    split at h
    · obtain rfl := Option.some.inj h
      simp [yield, Exponent.yield]
    · obtain rfl := Option.some.inj h
      simp [yield, Exponent.yield]
    · cases h
  | closing base x q outer =>
    simp only [next?] at h
    split at h
    · rename_i ht
      obtain rfl := Option.some.inj h
      rw [yield_complete, ht]
      simp [yield, baseYield, Primary.yield]
    · cases h

/-! ### Every tree is read -/

theorem read_cons {e next : Begun} {t : Token} (h : e.next? t = some next) (w : List Token) :
    e.read (t :: w) = next.read w := by
  rw [read, List.foldlM_cons, h]
  rfl

theorem read_append {e next : Begun} {v : List Token} (h : e.read v = some next) (w : List Token) :
    e.read (v ++ w) = next.read w := by
  rw [read] at h
  rw [read, List.foldlM_append, h]
  rfl

theorem operatorNext?_product (sum : Option (Expression × SumOperator)) (left : Term) (outer : Around)
    (op : ProductOperator) :
    next? (.operator sum left outer) (.symbol op.symbol) = some (.operand { sum, product := some (left, op) } outer) := by
  simp [next?, operatorNext?]

theorem operatorNext?_sum (sum : Option (Expression × SumOperator)) (left : Term) (outer : Around)
    (op : SumOperator) :
    next? (.operator sum left outer) (.symbol op.symbol) = some (.operand { sum := some (whole sum left, op) } outer) := by
  simp [next?, operatorNext?]

theorem complete_minus (q : Waiting) (outer : Around) (p : Primary) :
    complete { q with signs := q.signs ++ [.minus] } outer p = complete q outer (.minus p) := by
  simp only [complete, Waiting.term, signed_append]
  rfl

theorem complete_plus (q : Waiting) (outer : Around) (p : Primary) :
    complete { q with signs := q.signs ++ [.plus] } outer p = complete q outer (.plus p) := by
  simp only [complete, Waiting.term, signed_append]
  rfl

mutual

theorem read_primary (p : Primary) (q : Waiting) (outer : Around) :
    ∃ p', (operand q outer).read p.yield = some (complete q outer p') := by
  match p with
  | .number v => exact ⟨.number v, rfl⟩
  | .name n => exact ⟨.name n, rfl⟩
  | .group e =>
    obtain ⟨sum, t, h⟩ := read_expression e ((.group, q) :: outer)
    refine ⟨.group (whole sum t), ?_⟩
    rw [Primary.yield, read_cons rfl, read_append h]
    rfl
  | .plus p =>
    obtain ⟨p', h⟩ := read_primary p { q with signs := q.signs ++ [.plus] } outer
    refine ⟨.plus p', ?_⟩
    rw [Primary.yield, read_cons rfl, h, complete_plus]
  | .minus p =>
    obtain ⟨p', h⟩ := read_primary p { q with signs := q.signs ++ [.minus] } outer
    refine ⟨.minus p', ?_⟩
    rw [Primary.yield, read_cons rfl, h, complete_minus]
  | .root e =>
    obtain ⟨sum, t, h⟩ := read_expression e ((.argument .root, q) :: outer)
    refine ⟨.root (whole sum t), ?_⟩
    rw [Primary.yield, read_cons rfl, read_cons rfl, read_append h]
    rfl
  | .power base x =>
    obtain ⟨sum, t, h⟩ := read_expression base ((.argument .power, q) :: outer)
    refine ⟨.power (whole sum t) x, ?_⟩
    rw [Primary.yield, read_cons rfl, read_cons rfl, read_append h]
    cases x <;> rfl

theorem read_term (t : Term) (sum : Option (Expression × SumOperator)) (outer : Around) :
    ∃ t', (operand { sum } outer).read t.yield = some (.operator sum t' outer) := by
  match t with
  | .of first rest =>
    obtain ⟨p, hp⟩ := read_primary first { sum } outer
    obtain ⟨t', ht⟩ := read_products rest sum (Waiting.term { sum } p) outer
    refine ⟨t', ?_⟩
    rw [Term.yield, read_append hp]
    exact ht

theorem read_products (ps : Products) (sum : Option (Expression × SumOperator)) (left : Term) (outer : Around) :
    ∃ t', (operator sum left outer).read ps.yield = some (.operator sum t' outer) := by
  match ps with
  | .none => exact ⟨left, rfl⟩
  | .more op p rest =>
    obtain ⟨p', hp⟩ := read_primary p { sum, product := some (left, op) } outer
    obtain ⟨t', ht⟩ := read_products rest sum (Waiting.term { sum, product := some (left, op) } p') outer
    refine ⟨t', ?_⟩
    rw [Products.yield, read_cons (operatorNext?_product _ _ _ _), read_append hp]
    exact ht

theorem read_expression (e : Expression) (outer : Around) :
    ∃ sum t, (operand {} outer).read e.yield = some (.operator sum t outer) := by
  match e with
  | .of first rest =>
    obtain ⟨t, ht⟩ := read_term first none outer
    obtain ⟨sum, last, hs⟩ := read_sums rest none t outer
    refine ⟨sum, last, ?_⟩
    rw [Expression.yield, read_append ht]
    exact hs

theorem read_sums (ss : Sums) (sum : Option (Expression × SumOperator)) (left : Term) (outer : Around) :
    ∃ sum' t, (operator sum left outer).read ss.yield = some (.operator sum' t outer) := by
  match ss with
  | .none => exact ⟨sum, left, rfl⟩
  | .more op t rest =>
    obtain ⟨t', ht⟩ := read_term t (some (whole sum left, op)) outer
    obtain ⟨sum', last, hs⟩ := read_sums rest (some (whole sum left, op)) t' outer
    refine ⟨sum', last, ?_⟩
    rw [Sums.yield, read_cons (operatorNext?_sum _ _ _ _), read_append ht]
    exact hs

end

end Begun

namespace Draft

theorem yield_next? {draft next : Draft} {t : Token} (h : draft.next? t = some next) :
    next.yield = draft.yield ++ [t] := by
  cases draft with
  | start =>
    simp only [next?] at h
    split at h
    · rename_i ht
      obtain rfl := Option.some.inj h
      rw [ht]
      rfl
    · obtain ⟨e, he, rfl⟩ := Option.map_eq_some_iff.mp h
      exact Begun.yield_next? he
  | declared =>
    simp only [next?] at h
    split at h
    · obtain rfl := Option.some.inj h
      rfl
    · cases h
  | named name =>
    simp only [next?] at h
    split at h
    · rename_i ht
      obtain rfl := Option.some.inj h
      rw [ht]
      rfl
    · cases h
  | within name e =>
    obtain ⟨e', he, rfl⟩ := Option.map_eq_some_iff.mp h
    have hy := Begun.yield_next? he
    rcases name with _ | name
    · exact hy
    · exact congrArg (_ :: _ :: _ :: ·) hy

theorem read_append {draft next : Draft} {v : List Token} (h : draft.read v = some next) (w : List Token) :
    draft.read (v ++ w) = next.read w := by
  rw [read] at h
  rw [read, List.foldlM_append, h]
  rfl

theorem read_singleton (draft : Draft) (t : Token) : draft.read [t] = draft.next? t := by
  rw [read, List.foldlM_cons]
  exact bind_pure _

theorem read_within {name : Option String} {e next : Begun} {w : List Token} (h : e.read w = some next) :
    (within name e).read w = some (within name next) := by
  induction w generalizing e with
  | nil => exact congrArg (Option.map (within name)) h
  | cons t w ih =>
    rw [Begun.read, List.foldlM_cons] at h
    obtain ⟨middle, hm, h⟩ := Option.bind_eq_some_iff.mp h
    rw [read, List.foldlM_cons, next?, hm]
    exact ih h

/-- A statement is read to the draft in which nothing waits for more. -/
theorem read_statement (tree : Statement) : ∃ draft, start.read tree.yield = some draft ∧ draft.IsWhole := by
  cases tree with
  | declaration name e =>
    obtain ⟨sum, t, h⟩ := Begun.read_expression e []
    exact ⟨.within (some name) (.operator sum t []), read_within h, trivial⟩
  | expression e =>
    obtain ⟨sum, t, h⟩ := Begun.read_expression e []
    refine ⟨.within none (.operator sum t []), ?_, trivial⟩
    obtain ⟨first, rest, hy, hne, -⟩ := e.first
    have hw : read (.within none .start) e.yield = some (.within none (.operator sum t [])) := read_within h
    rw [hy] at hw
    rw [Statement.yield, hy, ← hw, read, read, List.foldlM_cons, List.foldlM_cons, next?, if_neg hne]
    rfl

theorem yield_read {draft next : Draft} {w : List Token} (h : draft.read w = some next) :
    next.yield = draft.yield ++ w := by
  induction w generalizing draft with
  | nil =>
    obtain rfl := Option.some.inj h
    exact (List.append_nil _).symm
  | cons t w ih =>
    rw [read, List.foldlM_cons] at h
    obtain ⟨middle, hm, h⟩ := Option.bind_eq_some_iff.mp h
    rw [ih h, yield_next? hm, List.append_assoc]
    rfl

/-! ## The beginnings of statements -/

section

variable {draft : Draft} {w : List Token} {t : Token}

theorem read_of_viable (h : Viable w) : ∃ draft, start.read w = some draft := by
  obtain ⟨tree, rest, ht⟩ := h
  obtain ⟨final, hr, -⟩ := read_statement tree
  rw [← ht, read, List.foldlM_append] at hr
  obtain ⟨draft, hd, -⟩ := Option.bind_eq_some_iff.mp hr
  exact ⟨draft, hd⟩

/-- A statement may begin with what is the yield of a draft, and with nothing else. -/
theorem viable_iff : Viable w ↔ ∃ draft : Draft, draft.yield = w := by
  constructor
  · intro h
    obtain ⟨draft, hd⟩ := read_of_viable h
    exact ⟨draft, yield_read hd⟩
  · rintro ⟨draft, rfl⟩
    exact viable_yield draft

theorem viable_of_next? {next : Draft} (h : draft.next? t = some next) : Viable (draft.yield ++ [t]) := by
  rw [← yield_next? h]
  exact viable_yield next

/-- A statement may begin with what was read and the token `t` if `t` goes on with the draft that
    was read. -/
theorem viable_append_iff (h : start.read w = some draft) : Viable (w ++ [t]) ↔ ∃ next, draft.next? t = some next := by
  constructor
  · intro hv
    obtain ⟨next, hn⟩ := read_of_viable hv
    rw [read_append h, read_singleton] at hn
    exact ⟨next, hn⟩
  · rintro ⟨next, hn⟩
    have hy : draft.yield = w := yield_read h
    rw [← hy]
    exact viable_of_next? hn

theorem complete_of_isWhole (h : draft.IsWhole) : Complete draft.yield := by
  match draft, h with
  | within none (.operator sum t []), _ => exact ⟨.expression (whole sum t), yield_whole sum t⟩
  | within (some name) (.operator sum t []), _ =>
    exact ⟨.declaration name (whole sum t), congrArg (_ :: _ :: _ :: ·) (yield_whole sum t)⟩

theorem complete_iff (h : start.read w = some draft) : Complete w ↔ draft.IsWhole := by
  constructor
  · rintro ⟨tree, rfl⟩
    obtain ⟨final, hr, hw⟩ := read_statement tree
    rw [h] at hr
    obtain rfl := Option.some.inj hr
    exact hw
  · intro hw
    have hy : draft.yield = w := yield_read h
    rw [← hy]
    exact complete_of_isWhole hw

end

end Draft

end Grammar

end Reckoner
