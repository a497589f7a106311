/-
  Reckoner.Proofs.Thrifty — operations that ask for no more than they need.

  Behind the reads that a session was given others may stand. An operation is thrifty if it comes
  to the same whatever they are, unless it asks for one of them; and what has once been asked for
  is never unasked. One operation behind another is thrifty if both are, so that this need only be
  shown of taking a token and of skipping, and of what reads nothing.

  - `Thrifty.bind`: one operation behind another.
  - `thrifty_next`, `thrifty_skipPast`: the operations that read.
  - `thrifty_calculate`, `thrifty_statement`, `thrifty_nextValue`, `thrifty_run`: all others.
-/

import Reckoner.Proofs.Reading
import Reckoner.Proofs.Sessions

namespace Reckoner

/-! ## What stands behind -/

def Scanner.feed (reads : List Read) (s : Scanner) : Scanner := { s with reads := s.reads ++ reads }

def Desk.feed (reads : List Read) (d : Desk) : Desk := { d with scanner := d.scanner.feed reads }

/-- What reads through a scanner, and can be given more to read. -/
class Reader (σ : Type) where
  scanner : σ → Scanner
  feed : List Read → σ → σ

instance : Reader Scanner := ⟨id, Scanner.feed⟩

instance : Reader Desk := ⟨Desk.scanner, Desk.feed⟩

instance : Reader Session := ⟨fun s => s.desk.scanner, Session.feed⟩

open Reader

/-- None of the reads that stand behind was asked for, nor was the end behind them. -/
structure Spares {σ : Type} [Reader σ] (back : List Read) (s : σ) : Prop where
  unended : (scanner s).ended = false
  behind : back <:+ (scanner s).reads

instance {σ : Type} [Reader σ] (back : List Read) (s : σ) : Decidable (Spares back s) :=
  decidable_of_iff ((scanner s).ended = false ∧ back <:+ (scanner s).reads)
    ⟨fun h => ⟨h.1, h.2⟩, fun h => ⟨h.unended, h.behind⟩⟩

section

variable {α β σ τ υ : Type} [Reader σ] [Reader τ] [Reader υ]

/-- What was asked for before, or asked for by `f`, is asked for when `f` is over. -/
def Lasts (f : σ → α × τ) : Prop := ∀ {s : σ} {back : List Read}, Spares back (f s).2 → Spares back s

/-- If what stands behind `s` is spared, it makes no difference. -/
def AlikeAt (f : σ → α × τ) (s : σ) : Prop :=
  ∀ back, (scanner s).ended = false → Spares back (f (feed back s)).2 →
    (scanner (f s).2).ended = false ∧ ∀ other, f (feed other s) = ((f s).1, feed other (f s).2)

structure Thrifty (f : σ → α × τ) : Prop where
  lasts : Lasts f
  alike : ∀ s, AlikeAt f s

theorem Thrifty.congr {f g : σ → α × τ} (h : Thrifty f) (he : ∀ s, g s = f s) : Thrifty g := by
  obtain rfl : g = f := funext he
  exact h

section

variable {f : σ → α × τ} {g : α → τ → β × υ}

theorem AlikeAt.bind {s : σ} (hf : AlikeAt f s) (hlasts : ∀ v, Lasts (g v)) (hg : AlikeAt (g (f s).1) (f s).2) :
    AlikeAt (fun s => g (f s).1 (f s).2) s := by
  intro back hs h
  have h : Spares back (g (f (feed back s)).1 (f (feed back s)).2).2 := h
  obtain ⟨hmid, hall⟩ := hf back hs (hlasts _ h)
  rw [hall] at h
  obtain ⟨hend, hall'⟩ := hg back hmid h
  refine ⟨hend, ?_⟩
  intro other
  show g (f (feed other s)).1 (f (feed other s)).2 = _
  rw [hall]
  exact hall' other

/-- For an operation that calls itself behind a first one, `Thrifty.bind` has to be split: that it is
    alike at one place is told by the place where it goes on. -/
theorem AlikeAt.of_bind {k : σ → β × υ} {s : σ} (hf : Thrifty f) (hlasts : ∀ v, Lasts (g v))
    (hk : ∀ s, k s = g (f s).1 (f s).2) (hg : AlikeAt (g (f s).1) (f s).2) : AlikeAt k s := by
  obtain rfl : k = fun s => g (f s).1 (f s).2 := funext hk
  exact (hf.alike s).bind hlasts hg

theorem Thrifty.bind (hf : Thrifty f) (hg : ∀ v, Thrifty (g v)) : Thrifty fun s => g (f s).1 (f s).2 :=
  ⟨fun h => hf.lasts ((hg _).lasts h), fun s => (hf.alike s).bind (fun v => (hg v).lasts) ((hg _).alike _)⟩

end

/-- What reads nothing is thrifty. -/
theorem Thrifty.still {f : σ → α × τ} (hr : ∀ s, (scanner (f s).2).reads = (scanner s).reads)
    (he : ∀ s, (scanner (f s).2).ended = (scanner s).ended)
    (hall : ∀ s other, f (feed other s) = ((f s).1, feed other (f s).2)) : Thrifty f := by
  constructor
  · rintro s back ⟨hunended, hbehind⟩
    rw [he] at hunended
    rw [hr] at hbehind
    exact ⟨hunended, hbehind⟩
  · intro s back hs _
    exact ⟨(he s).trans hs, hall s⟩

theorem Thrifty.pure {v : σ → α} (hv : ∀ s other, v (feed other s) = v s) : Thrifty fun s => (v s, s) :=
  .still (fun _ => rfl) (fun _ => rfl) fun s other => by rw [hv]

theorem Thrifty.map {f : σ → α × τ} (hf : Thrifty f) (h : α → β) : Thrifty fun s => (h (f s).1, (f s).2) := by
  have hanswer (v : α) : Thrifty fun s : τ => (h v, s) := .pure fun _ _ => rfl
  exact hf.bind hanswer

end

/-! ## Tokens and skipping -/

namespace Scanner

variable {back : List Read}

/-- Once a read of those behind is gone, they are no longer all there. -/
theorem not_suffix_of_cons {read : Read} {rest reads : List Read} (h : reads <:+ rest) : ¬ read :: rest <:+ reads := by
  intro hback
  have hlength := (hback.trans h).length_le
  rw [List.length_cons] at hlength
  exact Nat.not_succ_le_self _ hlength

theorem ended_advance {ended : Bool} {text : List Char} {line : Nat} {reads : List Read}
    (h : (advance ended text line reads).2.ended = false) : ended = false := by
  fun_induction advance ended text line reads with
  | case1 => exact h
  | case2 => exact h
  | case3 => cases h
  | case4 => exact h
  | case5 text line next reads _ ih => exact ih h

theorem ended_seek {c : Char} {ended : Bool} {text : List Char} {line : Nat} {reads : List Read}
    (h : (seek c ended text line reads).2.ended = false) : ended = false := by
  fun_induction seek c ended text line reads with
  | case1 => exact h
  | case2 => cases h
  | case3 => exact h
  | case4 text line next reads _ ih => exact ih h

theorem advance_alike {text : List Char} {line : Nat} {reads : List Read}
    (h : Spares back (advance false text line (reads ++ back)).2) :
    (advance false text line reads).2.ended = false ∧ ∀ other,
      advance false text line (reads ++ other) =
        ((advance false text line reads).1, (advance false text line reads).2.feed other) := by
  fun_induction advance false text line reads with
  | case1 text line reads t rest hn => exact ⟨rfl, fun other => by rw [advance.eq_def, hn]; rfl⟩
  | case2 text line reads c rest hn => exact ⟨rfl, fun other => by rw [advance.eq_def, hn]; rfl⟩
  | case3 text line hn =>
    exfalso
    rw [List.nil_append, advance.eq_def, hn] at h
    obtain ⟨hunended, hbehind⟩ := h
    rcases back with _ | ⟨_ | message, back⟩
    · cases hunended
    · exact not_suffix_of_cons (suffix_reads_advance _ _ _ _) hbehind
    · exact not_suffix_of_cons (List.suffix_refl _) hbehind
  | case4 text line message reads hn => exact ⟨rfl, fun other => by rw [List.cons_append, advance.eq_def, hn]; rfl⟩
  | case5 text line next reads hn ih =>
    have hnext : ∀ reads, advance false text line (.line next :: reads) = advance false next (line + 1) reads := by
      intro reads
      rw [advance.eq_def, hn]
    rw [List.cons_append, hnext] at h
    obtain ⟨hend, hall⟩ := ih h
    refine ⟨hend, ?_⟩
    intro other
    rw [List.cons_append, hnext]
    exact hall other

theorem seek_alike {c : Char} {text : List Char} {line : Nat} {reads : List Read}
    (h : Spares back (seek c false text line (reads ++ back)).2) :
    (seek c false text line reads).2.ended = false ∧ ∀ other,
      seek c false text line (reads ++ other) =
        ((seek c false text line reads).1, (seek c false text line reads).2.feed other) := by
  fun_induction seek c false text line reads with
  | case1 text line reads d rest hn => exact ⟨rfl, fun other => by rw [seek.eq_def, hn]; rfl⟩
  | case2 text line hn =>
    exfalso
    rw [List.nil_append, seek.eq_def, hn] at h
    obtain ⟨hunended, hbehind⟩ := h
    rcases back with _ | ⟨_ | message, back⟩
    · cases hunended
    · exact not_suffix_of_cons (suffix_reads_seek _ _ _ _ _) hbehind
    · exact not_suffix_of_cons (List.suffix_refl _) hbehind
  | case3 text line message reads hn => exact ⟨rfl, fun other => by rw [List.cons_append, seek.eq_def, hn]; rfl⟩
  | case4 text line next reads hn ih =>
    have hnext : ∀ reads, seek c false text line (.line next :: reads) = seek c false next (line + 1) reads := by
      intro reads
      rw [seek.eq_def, hn]
    rw [List.cons_append, hnext] at h
    obtain ⟨hend, hall⟩ := ih h
    refine ⟨hend, ?_⟩
    intro other
    rw [List.cons_append, hnext]
    exact hall other

theorem thrifty_next : Thrifty next := by
  constructor
  · rintro s back ⟨hunended, hbehind⟩
    refine ⟨?_, hbehind.trans (suffix_reads_next s)⟩
    have hunended : s.next.2.ended = false := hunended
    unfold next at hunended
    split at hunended
    · exact hunended
    · exact ended_advance hunended
  · intro s back hs h
    have hs : s.ended = false := hs
    rcases hh : s.held with _ | t
    · have hnext : ∀ other, (s.feed other).next = advance false s.text s.line (s.reads ++ other) := by
        intro other
        simp only [next, feed, hh, hs]
      have hself : s.next = advance false s.text s.line s.reads := by simp only [next, hh, hs]
      have h : Spares back (s.feed back).next.2 := h
      rw [hnext] at h
      show s.next.2.ended = false ∧ ∀ other, (s.feed other).next = (s.next.1, s.next.2.feed other)
      rw [hself]
      refine ⟨(advance_alike h).1, fun other => ?_⟩
      rw [hnext]
      exact (advance_alike h).2 other
    · have hself : s.next = (.ok t, { s with held := none }) := by simp only [next, hh]
      show s.next.2.ended = false ∧ ∀ other, (s.feed other).next = (s.next.1, s.next.2.feed other)
      rw [hself]
      refine ⟨hs, fun other => ?_⟩
      simp only [next, feed, hh]

theorem thrifty_putBack (t : Token) : Thrifty (putBack t) := by
  refine .still (fun s => ?_) (fun s => ?_) (fun s other => ?_)
  · show (s.putBack t).2.reads = s.reads
    unfold putBack
    split <;> rfl
  · show (s.putBack t).2.ended = s.ended
    unfold putBack
    split <;> rfl
  · show (s.feed other).putBack t = ((s.putBack t).1, (s.putBack t).2.feed other)
    unfold putBack feed
    dsimp only
    split <;> rfl

/-- The token that was put back is the one up to which is skipped. -/
def HoldsDelimiter (c : Char) (held : Option Token) : Prop := ∃ d : Symbol, held.bind Token.symbol? = some d ∧ d.char = c

theorem skipPast_of_holds {c : Char} {s : Scanner} (h : HoldsDelimiter c s.held) :
    s.skipPast c = (.ok (), { s with held := none }) := by
  obtain ⟨d, hd, hc⟩ := h
  simp only [skipPast, hd, if_pos hc]

theorem skipPast_of_not_holds {c : Char} {s : Scanner} (h : ¬ HoldsDelimiter c s.held) :
    s.skipPast c = seek c s.ended s.text s.line s.reads := by
  unfold skipPast
  split
  · rename_i d hd
    rw [if_neg fun hc => h ⟨d, hd, hc⟩]
  · rfl

theorem thrifty_skipPast (c : Char) : Thrifty (skipPast c) := by
  constructor
  · rintro s back ⟨hunended, hbehind⟩
    refine ⟨?_, hbehind.trans (suffix_reads_skipPast c s)⟩
    have hunended : (s.skipPast c).2.ended = false := hunended
    by_cases hh : HoldsDelimiter c s.held
    · rw [skipPast_of_holds hh] at hunended
      exact hunended
    · rw [skipPast_of_not_holds hh] at hunended
      exact ended_seek hunended
  · intro s back hs h
    have hs : s.ended = false := hs
    show (s.skipPast c).2.ended = false ∧ ∀ other, (s.feed other).skipPast c = ((s.skipPast c).1, (s.skipPast c).2.feed other)
    by_cases hh : HoldsDelimiter c s.held
    · rw [skipPast_of_holds hh]
      refine ⟨hs, fun other => ?_⟩
      exact skipPast_of_holds (s := s.feed other) hh
    · have hskip : ∀ other, (s.feed other).skipPast c = seek c false s.text s.line (s.reads ++ other) := by
        intro other
        rw [← hs]
        exact skipPast_of_not_holds (s := s.feed other) hh
      have h : Spares back ((s.feed back).skipPast c).2 := h
      rw [hskip] at h
      rw [skipPast_of_not_holds hh, hs]
      refine ⟨(seek_alike h).1, fun other => ?_⟩
      rw [hskip]
      exact (seek_alike h).2 other

end Scanner

open Scanner

/-! ## Calculations -/

namespace Calculation

theorem thrifty_finish (result : Except Mistake Binary64) (left : Bool) (t : Token) :
    Thrifty (finish result left t) := by
  refine .still (fun s => ?_) (fun s => ?_) (fun s other => ?_)
  · show (finish result left t s).2.reads = s.reads
    unfold finish putBack
    cases left <;> cases s.held <;> rfl
  · show (finish result left t s).2.ended = s.ended
    unfold finish putBack
    cases left <;> cases s.held <;> rfl
  · show finish result left t (s.feed other) = ((finish result left t s).1, (finish result left t s).2.feed other)
    obtain ⟨held, text, line, reads, ended⟩ := s
    cases left <;> cases held <;> rfl

variable (b : Bindings) (level : Level)

/-- A calculation goes on behind a read. -/
def runFrom (state : State) : Except Failure Token → Scanner → Except Failure Binary64 × Scanner
  | .error f, s => (.error f, s)
  | .ok t, s =>
    match step b level state t with
    | .more state => run b level state s
    | .stop result left => finish result left t s

theorem run_eq_runFrom (state : State) (s : Scanner) : run b level state s = runFrom b level state s.next.1 s.next.2 := by
  rw [run]
  split
  · rename_i hn
    rw [hn]
    rfl
  · rename_i t after hn
    rw [hn]
    show _ = (match step b level state t with | .more state => _ | .stop result left => _)
    split
    · rename_i hs
      rw [hs]
    · rename_i hs
      rw [hs]

theorem lasts_run (state : State) : Lasts (run b level state) := by
  intro s back h
  fun_induction run b level state s with
  | case1 state s f after hn =>
    refine thrifty_next.lasts ?_
    rwa [hn]
  | case2 state s t after hn next hs ih =>
    refine thrifty_next.lasts ?_
    rw [hn]
    exact ih h
  | case3 state s t after hn result left hs =>
    refine thrifty_next.lasts ?_
    rw [hn]
    exact (thrifty_finish result left t).lasts h

theorem lasts_runFrom (state : State) (r : Except Failure Token) : Lasts (runFrom b level state r) := by
  intro s back h
  unfold runFrom at h
  split at h
  · exact h
  · split at h
    · exact lasts_run b level _ h
    · exact (thrifty_finish _ _ _).lasts h

theorem alikeAt_run (state : State) (s : Scanner) : AlikeAt (run b level state) s := by
  fun_induction run b level state s with
  | case1 state s f after hn =>
    refine .of_bind thrifty_next (lasts_runFrom b level state) (run_eq_runFrom b level state) ?_
    rw [hn]
    exact (Thrifty.still (fun _ => rfl) (fun _ => rfl) fun _ _ => rfl).alike _
  | case2 state s t after hn next hs ih =>
    refine .of_bind thrifty_next (lasts_runFrom b level state) (run_eq_runFrom b level state) ?_
    rw [hn]
    have hgo : runFrom b level state (.ok t) = run b level next := by
      funext s
      rw [runFrom, hs]
    rw [hgo]
    exact ih
  | case3 state s t after hn result left hs =>
    refine .of_bind thrifty_next (lasts_runFrom b level state) (run_eq_runFrom b level state) ?_
    rw [hn]
    have hgo : runFrom b level state (.ok t) = finish result left t := by
      funext s
      rw [runFrom, hs]
    rw [hgo]
    exact (thrifty_finish result left t).alike after

theorem thrifty_run (state : State) : Thrifty (run b level state) := ⟨lasts_run b level state, alikeAt_run b level state⟩

end Calculation

/-! ## Desks -/

/-- What is done with a scanner is done at its desk. -/
theorem Thrifty.desk {α : Type} {f : Bindings → Scanner → α × Scanner} (hf : ∀ b, Thrifty (f b)) :
    Thrifty fun d : Desk => ((f d.bindings d.scanner).1, { d with scanner := (f d.bindings d.scanner).2 }) := by
  constructor
  · rintro d back ⟨hunended, hbehind⟩
    obtain ⟨hunended, hbehind⟩ := (hf d.bindings).lasts ⟨hunended, hbehind⟩
    exact ⟨hunended, hbehind⟩
  · rintro d back hd ⟨hunended, hbehind⟩
    obtain ⟨hend, hall⟩ := (hf d.bindings).alike d.scanner back hd ⟨hunended, hbehind⟩
    refine ⟨hend, ?_⟩
    intro other
    show ((f d.bindings (Scanner.feed other d.scanner)).1,
      { d with scanner := (f d.bindings (Scanner.feed other d.scanner)).2 }) = _
    have hall : f d.bindings (Scanner.feed other d.scanner) = _ := hall other
    rw [hall]
    rfl

namespace Desk

theorem thrifty_calculate (level : Calculation.Level) : Thrifty (calculate level) := by
  have hrun := Thrifty.desk fun b => Calculation.thrifty_run b level .start
  exact hrun.congr fun d => calculate_eq_run level d

/-- The end of a declaration, when its value is known. -/
def bindFrom (name : String) : Except Failure Binary64 → Desk → Except Failure Binary64 × Desk
  | .error f, d => (.error f, d)
  | .ok v, d =>
    match d.bindings.declare name v with
    | .ok bindings => (.ok v, { d with bindings })
    | .error m => (.error (.mistake d.scanner.line m), d)

theorem thrifty_bindFrom (name : String) (r : Except Failure Binary64) : Thrifty (bindFrom name r) := by
  cases r with
  | error f => exact .pure fun _ _ => rfl
  | ok v =>
    have hcases (d : Desk) : bindFrom name (.ok v) d =
        match d.bindings.declare name v with
        | .ok bindings => (.ok v, { d with bindings })
        | .error m => (.error (.mistake d.scanner.line m), d) := rfl
    refine .still (fun d => ?_) (fun d => ?_) (fun d other => ?_)
    · rw [hcases]
      cases d.bindings.declare name v <;> rfl
    · rw [hcases]
      cases d.bindings.declare name v <;> rfl
    · have hbindings : (Reader.feed other d).bindings = d.bindings := rfl
      rw [hcases, hcases, hbindings]
      cases d.bindings.declare name v <;> rfl

theorem thrifty_bindTo (name : String) : Thrifty (bindTo name) := by
  refine ((thrifty_calculate .expression).bind (thrifty_bindFrom name)).congr ?_
  intro d
  rw [bindTo]
  rcases d.calculate .expression with ⟨f | v, after⟩ <;> rfl

/-- A declaration behind its name, when the next token was read. -/
def nameFrom (name : String) : Except Failure Token → Desk → Except Failure Binary64 × Desk
  | .error f, d => (.error f, d)
  | .ok t, d =>
    if t = .symbol .equals then bindTo name d else (.error (.mistake d.scanner.line (.equalsMissing name)), d)

theorem thrifty_nameFrom (name : String) (r : Except Failure Token) : Thrifty (nameFrom name r) := by
  cases r with
  | error f => exact .pure fun _ _ => rfl
  | ok t =>
    by_cases ht : t = .symbol .equals
    · refine (thrifty_bindTo name).congr fun d => ?_
      rw [nameFrom, if_pos ht]
    · have hpure : Thrifty fun d : Desk =>
          ((.error (.mistake d.scanner.line (.equalsMissing name)) : Except Failure Binary64), d) := .pure fun _ _ => rfl
      refine hpure.congr fun d => ?_
      rw [nameFrom, if_neg ht]

theorem thrifty_token : Thrifty fun d : Desk => (d.scanner.next.1, { d with scanner := d.scanner.next.2 }) :=
  .desk fun _ => thrifty_next

/-- A declaration behind its mark, when the next token was read. -/
def declarationFrom (r : Except Failure Token) (d : Desk) : Except Failure Binary64 × Desk :=
  match r with
  | .error f => (.error f, d)
  | .ok (.name name) => nameFrom name d.scanner.next.1 { d with scanner := d.scanner.next.2 }
  | .ok .endOfInput => (.error (.mistake d.scanner.line .inputEnded), d)
  | .ok t => (.error (.mistake d.scanner.line (.nameExpected t)), d)

theorem thrifty_declarationFrom (r : Except Failure Token) : Thrifty (declarationFrom r) := by
  rcases r with f | t
  · exact .pure fun _ _ => rfl
  · cases t with
    | name name => exact thrifty_token.bind (thrifty_nameFrom name)
    | _ => exact .pure fun _ _ => rfl

theorem thrifty_declaration : Thrifty declaration := by
  refine (thrifty_token.bind thrifty_declarationFrom).congr ?_
  intro d
  rw [declaration]
  rcases d.scanner.next with ⟨f | t, s⟩
  · rfl
  · cases t with
    | name name =>
      dsimp only [declarationFrom]
      rcases s.next with ⟨f | t, s'⟩ <;> rfl
    | _ => rfl

/-- An expression of which the first token was put back, if there was room for it. -/
def expressionFrom (r : Except Failure Unit) (d : Desk) : Except Failure Binary64 × Desk :=
  match r with
  | .error f => (.error f, d)
  | .ok () => calculate .expression d

theorem thrifty_expressionFrom (r : Except Failure Unit) : Thrifty (expressionFrom r) := by
  cases r with
  | error f => exact .pure fun _ _ => rfl
  | ok u => exact thrifty_calculate .expression

theorem thrifty_hold (t : Token) :
    Thrifty fun d : Desk => ((d.scanner.putBack t).1, { d with scanner := (d.scanner.putBack t).2 }) :=
  .desk fun _ => thrifty_putBack t

theorem thrifty_expressionAt (t : Token) : Thrifty (expressionAt t) := by
  refine ((thrifty_hold t).bind thrifty_expressionFrom).congr ?_
  intro d
  rw [expressionAt]
  rcases d.scanner.putBack t with ⟨f | u, s⟩ <;> rfl

/-- A statement, when its first token was read. -/
def statementFrom (r : Except Failure Token) (d : Desk) : Except Failure Binary64 × Desk :=
  match r with
  | .error f => (.error f, d)
  | .ok t => if t = .keyword .declare then declaration d else expressionAt t d

theorem thrifty_statementFrom (r : Except Failure Token) : Thrifty (statementFrom r) := by
  cases r with
  | error f => exact .pure fun _ _ => rfl
  | ok t =>
    by_cases ht : t = .keyword .declare
    · refine thrifty_declaration.congr fun d => ?_
      rw [statementFrom, if_pos ht]
    · refine (thrifty_expressionAt t).congr fun d => ?_
      rw [statementFrom, if_neg ht]

theorem thrifty_statement : Thrifty statement := by
  refine (thrifty_token.bind thrifty_statementFrom).congr ?_
  intro d
  rw [statement]
  rcases d.scanner.next with ⟨f | t, s⟩ <;> rfl

/-- Equals signs are passed over behind a read. -/
def firstTokenFrom : Except Failure Token → Scanner → Except Failure Token × Scanner
  | .error f, s => (.error f, s)
  | .ok t, s => if t = .symbol .equals then firstToken s else (.ok t, s)

theorem firstToken_eq_from (s : Scanner) : firstToken s = firstTokenFrom s.next.1 s.next.2 := by
  rcases hn : s.next with ⟨f | t, after⟩
  · exact firstToken_of_error hn
  · exact firstToken_of_token hn

theorem lasts_firstToken : Lasts firstToken := by
  intro s back h
  fun_induction firstToken s with
  | case1 s f after hn =>
    refine thrifty_next.lasts ?_
    rwa [hn]
  | case2 s after hn ih =>
    refine thrifty_next.lasts ?_
    rw [hn]
    exact ih h
  | case3 s t after hn ht =>
    refine thrifty_next.lasts ?_
    rwa [hn]

theorem lasts_firstTokenFrom (r : Except Failure Token) : Lasts (firstTokenFrom r) := by
  intro s back h
  unfold firstTokenFrom at h
  split at h
  · exact h
  · split at h
    · exact lasts_firstToken h
    · exact h

theorem alikeAt_firstToken (s : Scanner) : AlikeAt firstToken s := by
  fun_induction firstToken s with
  | case1 s f after hn =>
    refine .of_bind thrifty_next lasts_firstTokenFrom firstToken_eq_from ?_
    rw [hn]
    exact (Thrifty.pure fun _ _ => rfl).alike _
  | case2 s after hn ih =>
    refine .of_bind thrifty_next lasts_firstTokenFrom firstToken_eq_from ?_
    rw [hn]
    exact ih
  | case3 s t after hn ht =>
    refine .of_bind thrifty_next lasts_firstTokenFrom firstToken_eq_from ?_
    have hfrom : firstTokenFrom (.ok t) = fun s => (.ok t, s) := by
      funext s
      rw [firstTokenFrom, if_neg ht]
    rw [hn, hfrom]
    exact (Thrifty.pure fun _ _ => rfl).alike _

theorem thrifty_firstToken : Thrifty firstToken := ⟨lasts_firstToken, alikeAt_firstToken⟩

/-- A value that is wanted, when the statement it is of begins with a token that was put back. -/
def statedFrom (r : Except Failure Unit) (d : Desk) : Except Failure (Option Binary64) × Desk :=
  match r with
  | .error f => (.error f, d)
  | .ok () => (d.statement.1.map some, d.statement.2)

theorem thrifty_statedFrom (r : Except Failure Unit) : Thrifty (statedFrom r) := by
  cases r with
  | error f => exact .pure fun _ _ => rfl
  | ok u => exact thrifty_statement.map (Except.map some)

/-- A value that is wanted, when the first token was read. -/
def nextValueFrom (r : Except Failure Token) (d : Desk) : Except Failure (Option Binary64) × Desk :=
  match r with
  | .error f => (.error f, d)
  | .ok t =>
    if t = .keyword .exit ∨ t = .endOfInput then (.ok none, d)
    else statedFrom (d.scanner.putBack t).1 { d with scanner := (d.scanner.putBack t).2 }

theorem thrifty_nextValueFrom (r : Except Failure Token) : Thrifty (nextValueFrom r) := by
  cases r with
  | error f => exact .pure fun _ _ => rfl
  | ok t =>
    by_cases ht : t = .keyword .exit ∨ t = .endOfInput
    · have hpure : Thrifty fun d : Desk => ((.ok none : Except Failure (Option Binary64)), d) := .pure fun _ _ => rfl
      refine hpure.congr fun d => ?_
      rw [nextValueFrom, if_pos ht]
    · refine ((thrifty_hold t).bind thrifty_statedFrom).congr fun d => ?_
      rw [nextValueFrom, if_neg ht]

theorem thrifty_nextValue : Thrifty nextValue := by
  have hfirst : Thrifty fun d : Desk => ((firstToken d.scanner).1, { d with scanner := (firstToken d.scanner).2 }) :=
    .desk fun _ => thrifty_firstToken
  refine (hfirst.bind thrifty_nextValueFrom).congr ?_
  intro d
  rcases hf : firstToken d.scanner with ⟨f | t, s⟩
  · exact nextValue_of_error hf
  · by_cases ht : t = .keyword .exit ∨ t = .endOfInput
    · rw [nextValue_of_end hf ht]
      exact (if_pos ht).symm
    · have hheld := held_firstToken d.scanner
      rw [hf] at hheld
      rw [nextValue_of_token hf ht, nextValueFrom, if_neg ht, putBack_of_held_none hheld]
      rfl

end Desk

/-! ## Sessions -/

/-- What is done at a desk is done in its session. -/
theorem Thrifty.session {α : Type} {f : Desk → α × Desk} (hf : Thrifty f) :
    Thrifty fun s : Session => ((f s.desk).1, { s with desk := (f s.desk).2 }) := by
  constructor
  · rintro s back ⟨hunended, hbehind⟩
    obtain ⟨hunended, hbehind⟩ := hf.lasts ⟨hunended, hbehind⟩
    exact ⟨hunended, hbehind⟩
  · rintro s back hs ⟨hunended, hbehind⟩
    obtain ⟨hend, hall⟩ := hf.alike s.desk back hs ⟨hunended, hbehind⟩
    refine ⟨hend, ?_⟩
    intro other
    have hall : f (Desk.feed other s.desk) = _ := hall other
    show ((f (Desk.feed other s.desk)).1, { s with desk := (f (Desk.feed other s.desk)).2 }) = _
    rw [hall]
    rfl

namespace Session

theorem thrifty_nextValue : Thrifty nextValue := Desk.thrifty_nextValue.session

theorem thrifty_printValue (v : Binary64) : Thrifty (printValue v) := by
  refine .still (fun s => ?_) (fun s => ?_) (fun s other => ?_)
  · show (s.printValue v).2.desk.scanner.reads = s.desk.scanner.reads
    rw [desk_printValue]
  · show (s.printValue v).2.desk.scanner.ended = s.desk.scanner.ended
    rw [desk_printValue]
  · show (s.feed other).printValue v = ((s.printValue v).1, (s.printValue v).2.feed other)
    have hprecision : (s.feed other).precision = s.precision := rfl
    rw [printValue, printValue, hprecision]
    cases resultLine? s.precision v <;> rfl

/-- A mistake is skipped, when it was reported. -/
def recoverFrom (r : Except Failure Unit) (s : Session) : Option Ending × Session :=
  match r with
  | .error f => (some (.failed f), s)
  | .ok () =>
    (proceed (s.desk.scanner.skipPast Symbol.equals.char).1,
      { s with desk.scanner := (s.desk.scanner.skipPast Symbol.equals.char).2 })

theorem thrifty_recoverFrom (r : Except Failure Unit) : Thrifty (recoverFrom r) := by
  cases r with
  | error f => exact .pure fun _ _ => rfl
  | ok u =>
    have hskip := (Thrifty.desk fun _ => thrifty_skipPast Symbol.equals.char).session
    exact hskip.map proceed

theorem thrifty_recover (f : Failure) : Thrifty (recover f) := by
  have hwrite : Thrifty fun s : Session => ((s.err.writeLine f.message).1, { s with err := (s.err.writeLine f.message).2 }) :=
    .still (fun _ => rfl) (fun _ => rfl) fun _ _ => rfl
  refine (hwrite.bind thrifty_recoverFrom).congr ?_
  intro s
  rw [recover]
  rcases s.err.writeLine f.message with ⟨g | u, err⟩ <;> rfl

/-- A turn, when its value is known. -/
def turnFrom (r : Except Failure (Option Binary64)) (s : Session) : Option Ending × Session :=
  match r with
  | .ok none => (some s.close, s)
  | .ok (some v) => s.printValue v
  | .error f => if f.isRecoverable then s.recover f else (some (.failed f), s)

theorem thrifty_turnFrom (r : Except Failure (Option Binary64)) : Thrifty (turnFrom r) := by
  rcases r with f | _ | v
  · by_cases hf : f.isRecoverable = true
    · refine (thrifty_recover f).congr fun s => ?_
      rw [turnFrom, if_pos hf]
    · have hpure : Thrifty fun s : Session => (some (Ending.failed f), s) := .pure fun _ _ => rfl
      refine hpure.congr fun s => ?_
      rw [turnFrom, if_neg hf]
  · exact .pure fun _ _ => rfl
  · exact thrifty_printValue v

theorem thrifty_turn : Thrifty turn := by
  refine (thrifty_nextValue.bind thrifty_turnFrom).congr ?_
  intro s
  rw [turn]
  rcases s.nextValue with ⟨f | _ | v, after⟩ <;> rfl

/-- A run goes on behind a turn. -/
def runFrom : Option Ending → Session → Ending × Session
  | some ending, s => (ending, s)
  | none, s => s.run

theorem run_eq_runFrom (s : Session) : s.run = runFrom s.turn.1 s.turn.2 := by
  rcases ht : s.turn.1 with _ | ending
  · exact run_of_goes ht
  · exact run_of_end ht

theorem lasts_run : Lasts run := by
  intro s back h
  fun_induction run s with
  | case1 s ending after hn =>
    refine thrifty_turn.lasts ?_
    rwa [hn]
  | case2 s after hn ih =>
    refine thrifty_turn.lasts ?_
    rw [hn]
    exact ih h

theorem lasts_runFrom (r : Option Ending) : Lasts (runFrom r) := by
  intro s back h
  cases r with
  | none => exact lasts_run h
  | some ending => exact h

theorem alikeAt_run (s : Session) : AlikeAt run s := by
  fun_induction run s with
  | case1 s ending after hn =>
    refine .of_bind thrifty_turn lasts_runFrom run_eq_runFrom ?_
    rw [hn]
    exact (Thrifty.pure fun _ _ => rfl).alike _
  | case2 s after hn ih =>
    refine .of_bind thrifty_turn lasts_runFrom run_eq_runFrom ?_
    rw [hn]
    exact ih

theorem thrifty_run : Thrifty run := ⟨lasts_run, alikeAt_run⟩

end Session

end Reckoner
