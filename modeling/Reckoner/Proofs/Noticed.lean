/-
  Reckoner.Proofs.Noticed — where a mistake is noticed.

  A mistake is made at the last lexeme that was read, and its line is the line of that lexeme: no
  line is read between taking a token and reporting on it, though tokens wait to be read again
  across statements and across skipping.

  - `about_of_turns`: what a mistake is about, at the token where it is noticed.
  - `places_statement`, `places_nextValue`: where it is noticed, and where the desk goes on.
  - `mistakes_on_their_lines`: every mistake of a session, and every line that reports one.
-/

import Reckoner.Proofs.Asked
import Reckoner.Proofs.Places
import Reckoner.Proofs.Sessions
import Reckoner.Proofs.Worth

namespace Reckoner

open Scanner Grammar Lexeme

/-! ## What a mistake is about -/

namespace Grammar

/-- When `w` has been read of a statement, the mistake is noticed at the token `t`: it is refused, or
    stands in the place of an equals sign; it completes what has no value; or it ends the argument
    of a root that does not exist, or the value of a name that is bound. -/
inductive About (b : Bindings) : List Token → Token → Mistake → Prop
  | refused (w : List Token) {t : Token} {m : Mistake} (h : m.Refuses t) : About b w t m
  | missing (name : String) {t : Token} (ht : t ≠ .symbol .equals) :
    About b [.keyword .declare, .name name] t (.equalsMissing name)
  | fault {w : List Token} {t : Token} {m : Mistake} (h : Fault b (w ++ [t]) m) : About b w t m
  | root (before : List Token) {e : Expression} {v : Binary64} {t : Token} (hv : e.value b = .ok v)
    (hr : v.isBelowZero = true) (ht : t ∉ operators) :
    About b (before ++ .keyword .root :: .symbol .opening :: e.yield) t (.negativeRoot v)
  | twice {name : String} {e : Expression} {v : Binary64} {t : Token} (hv : e.value b = .ok v)
    (hb : b.isBound name = true) (ht : t ∉ operators) :
    About b (.keyword .declare :: .name name :: .symbol .equals :: e.yield) t (.declaredTwice name)

variable {b : Bindings}

theorem below_of_squareRoot {v : Binary64} {m : Mistake} (h : v.squareRoot = .error m) :
    m = .negativeRoot v ∧ v.isBelowZero = true := by
  unfold Binary64.squareRoot at h
  split at h
  · rename_i hv
    exact ⟨(Except.error.inj h).symm, hv⟩
  · cases h

theorem twice_of_bound {name : Option String} {v : Binary64} {m : Mistake}
    (h : Phase.bound b name (.ok v) = .error m) : ∃ n, name = some n ∧ b.isBound n = true ∧ m = .declaredTwice n := by
  rcases name with _ | n
  · cases h
  · simp only [Phase.bound] at h
    split at h
    · rename_i hb
      exact ⟨n, rfl, hb, (Except.error.inj h).symm⟩
    · cases h

theorem about_of_turns {draft : Draft} {t : Token} {m : Mistake} {left : Bool}
    (h : Turns b draft t (.stop (.error m) left)) : About b draft.yield t m := by
  generalize hresult : Except.error m = result at h
  cases h with
  | fault go h =>
    obtain rfl := Except.error.inj hresult
    exact .fault h
  | impossible go due h =>
    obtain rfl := Except.error.inj hresult
    exact .refused _ h
  | @missing name hd ht =>
    obtain rfl := Except.error.inj hresult
    subst hd
    exact .missing name ht
  | @root name sum last q outer v m' hd hv hm ht =>
    obtain rfl := Except.error.inj hresult
    obtain ⟨rfl, hv'⟩ := below_of_squareRoot hm
    subst hd
    rcases name with _ | n
    · have ha := About.root (aroundYield outer ++ q.yield) hv hv' ht
      simpa [Draft.yield, Begun.yield, aroundYield, opened, Calculation.BuiltIn.keyword] using ha
    · have ha := About.root ([.keyword .declare, .name n, .symbol .equals] ++ (aroundYield outer ++ q.yield)) hv hv' ht
      simpa [Draft.yield, Begun.yield, aroundYield, opened, Calculation.BuiltIn.keyword] using ha
  | @done name sum last v hd hv ht =>
    obtain ⟨n, rfl, hb, rfl⟩ := twice_of_bound hresult.symm
    subst hd
    have ha := About.twice hv hb ht
    simpa [Draft.yield, Begun.yield, aroundYield] using ha

end Grammar

/-! ## The lexeme it is noticed at -/

/-- The mistake is about the lexeme at place `n` and the tokens of the statement before it. -/
inductive Concerns (b : Bindings) (text : List Char) (n : Nat) : Mistake → Prop
  | stray {c : Char} (h : (all text)[n]? = some (.stray c)) : Concerns b text n (.strayCharacter c)
  | token {w : List Token} {t : Token} {m : Mistake} (hw : w.map .token <:+ (all text).take n)
    (ht : answerAt text n = .ok t) (h : About b w t m) : Concerns b text n m

variable {text : List Char} {b : Bindings}

/-- What was read are the lexemes up to the place where the scanner is due. -/
theorem Reached.due {level : Calculation.Level} {origin p : Phase} {first s : Scanner} {w : List Token} {n : Nat}
    (h : Reached b level origin first w p s) (hd : Due text n first) :
    Due text (n + w.length) s ∧ (all text).take (n + w.length) = (all text).take n ++ w.map .token := by
  induction h with
  | none => exact ⟨hd, (List.append_nil _).symm⟩
  | @more w p next s after t h read step ih =>
    obtain ⟨hs, hw⟩ := ih
    have ht : t ≠ .endOfInput := by
      rintro rfl
      exact Phase.step_endOfInput _ _ _ _ step
    obtain ⟨ha, hat, -⟩ := due_next hs
    rw [read] at ha hat
    have hl := getElem?_of_answerAt ha.symm ht
    rw [List.length_append, List.length_singleton, ← Nat.add_assoc, List.take_add_one, hl, hw]
    exact ⟨.unread hat, by simp⟩

namespace Desk

/-- The last lexeme read was at a place, the scanner goes on from there, and a mistake is noticed at
    that lexeme, on its line. -/
structure Places (text : List Char) (b : Bindings) {α : Type} (a : Except Failure α) (s : Scanner) : Prop where
  due : ∃ n, Due text n s
  noticed : ∀ f, a = .error f → ∃ n m, f = .mistake (lineOf text n) m ∧ Seen text n s ∧ Concerns b text n m

theorem places_finish {n : Nat} {s : Scanner} (hs : Seen text n s) (hheld : s.held = none) {t : Token}
    (ht : answerAt text n = .ok t) {result : Except Mistake Binary64} (left : Bool)
    (h : ∀ m, result = .error m → Concerns b text n m) :
    Places text b (Calculation.finish result left t s).1 (Calculation.finish result left t s).2 := by
  have hfailed {f : Failure} (hf : result.mapError (.mistake s.line) = .error f) :
      ∃ m, f = .mistake (lineOf text n) m ∧ Concerns b text n m := by
    cases result with
    | ok v => cases hf
    | error m =>
      obtain rfl := Except.error.inj hf
      exact ⟨m, by rw [hs.line], h m rfl⟩
  cases left with
  | false =>
    rw [Calculation.finish_used]
    refine ⟨⟨n + 1, hs.due hheld⟩, fun f hf => ?_⟩
    obtain ⟨m, hm, hc⟩ := hfailed hf
    exact ⟨n, m, hm, hs, hc⟩
  | true =>
    rw [Calculation.finish_left hheld]
    refine ⟨⟨n, hs.hold ht⟩, fun f hf => ?_⟩
    obtain ⟨m, hm, hc⟩ := hfailed hf
    exact ⟨n, m, hm, ⟨hs.rest, hs.line⟩, hc⟩

/-- A scanner that meets a stray character. -/
theorem places_stray {n : Nat} {s : Scanner} (hs : Seen text n s) (hheld : s.held = none) {α : Type} {f : Failure}
    (hf : answerAt text n = .error f) : Places text b (.error f : Except Failure α) s := by
  refine ⟨⟨n + 1, hs.due hheld⟩, fun g hg => ?_⟩
  obtain rfl := Except.error.inj hg
  obtain ⟨c, hc, rfl⟩ := stray_of_answerAt hf
  exact ⟨n, _, rfl, hs, .stray hc⟩

theorem places_statement {d : Desk} {n : Nat} (h : Due text n d.scanner) :
    Places text d.bindings d.statement.1 d.statement.2.scanner := by
  have hended := ended_statement d
  generalize ha : (d.statement.1, d.statement.2.scanner) = a at hended
  have h₁ : d.statement.1 = a.1 := congrArg Prod.fst ha
  have h₂ : d.statement.2.scanner = a.2 := congrArg Prod.snd ha
  rw [h₁, h₂]
  cases hended with
  | @failed w p s after f hr read =>
    obtain ⟨hs, -⟩ := hr.due h
    obtain ⟨hanswer, -, hseen⟩ := due_next hs
    have hheld := held_next s
    rw [read] at hanswer hseen hheld
    exact places_stray hseen hheld hanswer.symm
  | @stopped w p s after t result left hr read step =>
    obtain ⟨hs, hw⟩ := hr.due h
    obtain ⟨hanswer, -, hseen⟩ := due_next hs
    have hheld := held_next s
    rw [read] at hanswer hseen hheld
    refine places_finish hseen hheld hanswer.symm left fun m hm => ?_
    obtain ⟨draft, hread, hstands⟩ := stands_reached hr
    have hturns := turns_step hstands t
    rw [step, hm] at hturns
    obtain rfl : draft.yield = w := Draft.yield_read hread
    refine .token ?_ hanswer.symm (about_of_turns hturns)
    rw [hw]
    exact List.suffix_append _ _

/-- What is asked of a desk comes to its answer at a place. -/
theorem places_nextValue {d : Desk} {n : Nat} (h : Due text n d.scanner) :
    Places text d.bindings d.nextValue.1 d.nextValue.2.scanner := by
  obtain ⟨k, ha, hseen⟩ := due_firstToken h
  have hheld := held_firstToken d.scanner
  rcases hf : firstToken d.scanner with ⟨f | t, s⟩
  · rw [hf] at ha hseen hheld
    rw [nextValue_of_error hf]
    exact places_stray hseen hheld ha.symm
  rw [hf] at ha hseen hheld
  by_cases hq : t = .keyword .exit ∨ t = .endOfInput
  · rw [nextValue_of_end hf hq]
    exact ⟨⟨k + 1, hseen.due hheld⟩, nofun⟩
  · rw [nextValue_of_token hf hq]
    obtain ⟨hdue, hnoticed⟩ := places_statement (d := { d with scanner := { s with held := some t } })
      (hseen.hold ha.symm)
    refine ⟨hdue, fun f hf => ?_⟩
    refine hnoticed f ?_
    generalize (statement { d with scanner := { s with held := some t } }).1 = r at hf
    cases r with
    | ok v => cases hf
    | error g => exact congrArg Except.error (Except.error.inj hf)

theorem line_finish (result : Except Mistake Binary64) (left : Bool) (t : Token) (s : Scanner) :
    (Calculation.finish result left t s).2.line = s.line := by
  cases left with
  | false => rfl
  | true =>
    unfold Calculation.finish putBack
    cases s.held <;> rfl

theorem line_statement_le (d : Desk) : d.scanner.line ≤ d.statement.2.scanner.line := by
  have hended := ended_statement d
  generalize ha : (d.statement.1, d.statement.2.scanner) = a at hended
  have hscanner : d.statement.2.scanner = a.2 := congrArg Prod.snd ha
  rw [hscanner]
  cases hended with
  | @failed w p s after f hr read =>
    have h := line_after_le d.scanner (w.length + 1)
    rwa [after_succ, ← hr.scanner, read] at h
  | @stopped w p s after t result left hr read step =>
    have h := line_after_le d.scanner (w.length + 1)
    rw [after_succ, ← hr.scanner, read] at h
    rw [line_finish]
    exact h

theorem line_nextValue_le (d : Desk) : d.scanner.line ≤ d.nextValue.2.scanner.line := by
  have h := line_firstToken_le d.scanner
  rcases hf : firstToken d.scanner with ⟨f | t, s⟩
  · rw [hf] at h
    rw [nextValue_of_error hf]
    exact h
  rw [hf] at h
  by_cases hq : t = .keyword .exit ∨ t = .endOfInput
  · rw [nextValue_of_end hf hq]
    exact h
  · rw [nextValue_of_token hf hq]
    exact Nat.le_trans h (line_statement_le { d with scanner := { s with held := some t } })

/-- A mistake of the desk is noticed at the last lexeme that was read, which it concerns, and on the
    line of that lexeme. -/
def OnLine (text : List Char) (d : Desk) (line : Nat) (m : Mistake) : Prop :=
  ∃ n, Seen text n d.nextValue.2.scanner ∧ line = lineOf text n ∧ Concerns d.bindings text n m

theorem onLine_of_error {d : Desk} {n : Nat} (h : Due text n d.scanner) {f : Failure} (hf : d.nextValue.1 = .error f) :
    ∃ line m, f = .mistake line m ∧ d.OnLine text line m := by
  obtain ⟨-, hnoticed⟩ := places_nextValue h
  obtain ⟨k, m, rfl, hseen, hc⟩ := hnoticed f hf
  exact ⟨_, m, rfl, k, hseen, rfl, hc⟩

theorem OnLine.line {d : Desk} {line : Nat} {m : Mistake} (h : d.OnLine text line m) :
    line = d.nextValue.2.scanner.line := by
  obtain ⟨n, hseen, rfl, -⟩ := h
  exact hseen.line.symm

end Desk

/-! ## Sessions -/

namespace Session

variable {s : Session} {n : Nat}

/-- The scanner is due somewhere when a turn is over. -/
theorem due_turn (h : Due text n s.desk.scanner) : ∃ k, Due text k s.turn.2.desk.scanner := by
  obtain ⟨⟨k, hk⟩, -⟩ := Desk.places_nextValue h
  unfold turn nextValue
  rcases hn : s.desk.nextValue with ⟨f | _ | v, after⟩
  · rw [hn] at hk
    dsimp only
    split
    · unfold recover
      split
      · exact ⟨k, hk⟩
      · obtain ⟨j, hj⟩ := at_skipPast Symbol.isDelimiter_equals hk
        exact ⟨j, .unread hj⟩
    · exact ⟨k, hk⟩
  · rw [hn] at hk
    exact ⟨k, hk⟩
  · rw [hn] at hk
    refine ⟨k, ?_⟩
    show Due text k (printValue v { s with desk := after }).2.desk.scanner
    rw [desk_printValue]
    exact hk

theorem due_run (h : Due text n s.desk.scanner) :
    (∀ d ∈ s.asked, ∃ k, Due text k d.scanner) ∧ ∃ k, Due text k s.run.2.desk.scanner := by
  fun_induction run s generalizing n with
  | case1 s ending after hn =>
    obtain ⟨k, hk⟩ := due_turn h
    rw [hn] at hk
    rw [asked_of_end (congrArg Prod.fst hn)]
    refine ⟨?_, k, hk⟩
    intro d hd
    obtain rfl := List.mem_singleton.mp hd
    exact ⟨n, h⟩
  | case2 s after hn ih =>
    obtain ⟨k, hk⟩ := due_turn h
    rw [hn] at hk
    obtain ⟨hasked, hafter⟩ := ih hk
    rw [asked_of_goes (congrArg Prod.fst hn), hn]
    refine ⟨?_, hafter⟩
    intro d hd
    rcases List.mem_cons.mp hd with rfl | hd
    · exact ⟨n, h⟩
    · exact hasked d hd

/-- The desks that a call asks for a value. -/
def asks (s : Session) : Call → List Desk
  | .nextValue => [s.desk]
  | .turn => [s.desk]
  | .run => s.asked
  | .banner => []
  | .equip _ _ _ => []

def asksAll (s : Session) : List Call → List Desk
  | [] => []
  | call :: calls => s.asks call ++ (s.perform call).asksAll calls

theorem due_perform (h : Due text n s.desk.scanner) (call : Call) :
    (∀ d ∈ s.asks call, ∃ k, Due text k d.scanner) ∧ ∃ k, Due text k (s.perform call).desk.scanner := by
  have hself : ∀ d ∈ [s.desk], ∃ k, Due text k d.scanner := by
    intro d hd
    obtain rfl := List.mem_singleton.mp hd
    exact ⟨n, h⟩
  cases call with
  | nextValue =>
    obtain ⟨hk, -⟩ := Desk.places_nextValue h
    exact ⟨hself, hk⟩
  | turn => exact ⟨hself, due_turn h⟩
  | run => exact due_run h
  | banner => exact ⟨nofun, n, h⟩
  | equip precision out err => exact ⟨nofun, n, h⟩

theorem due_performAll (h : Due text n s.desk.scanner) (calls : List Call) :
    (∀ d ∈ s.asksAll calls, ∃ k, Due text k d.scanner) ∧ ∃ k, Due text k (s.performAll calls).desk.scanner := by
  induction calls generalizing s n with
  | nil => exact ⟨nofun, n, h⟩
  | cons call calls ih =>
    obtain ⟨hasked, k, hk⟩ := due_perform h call
    obtain ⟨hasked', hafter⟩ := ih hk
    refine ⟨?_, hafter⟩
    intro d hd
    rcases List.mem_append.mp hd with hd | hd
    · exact hasked d hd
    · exact hasked' d hd

/-! ## Lines go up -/

/-- The lines of the answers go up, from `first` to `last`. -/
structure Ascends (first last : Nat) (desks : List Desk) : Prop where
  sorted : (desks.map (·.nextValue.2.scanner.line)).Pairwise (· ≤ ·)
  bounds : ∀ d ∈ desks, first ≤ d.nextValue.2.scanner.line ∧ d.nextValue.2.scanner.line ≤ last
  le : first ≤ last

theorem Ascends.append {first middle last : Nat} {ds es : List Desk} (h : Ascends first middle ds)
    (h' : Ascends middle last es) : Ascends first last (ds ++ es) := by
  refine ⟨?_, ?_, Nat.le_trans h.le h'.le⟩
  · rw [List.map_append, List.pairwise_append]
    refine ⟨h.sorted, h'.sorted, ?_⟩
    intro a ha b hb
    obtain ⟨d, hd, rfl⟩ := List.mem_map.mp ha
    obtain ⟨e, he, rfl⟩ := List.mem_map.mp hb
    exact Nat.le_trans (h.bounds d hd).2 (h'.bounds e he).1
  · intro d hd
    rcases List.mem_append.mp hd with hd | hd
    · exact ⟨(h.bounds d hd).1, Nat.le_trans (h.bounds d hd).2 h'.le⟩
    · exact ⟨Nat.le_trans h.le (h'.bounds d hd).1, (h'.bounds d hd).2⟩

theorem ascends_nil (line : Nat) : Ascends line line [] := ⟨.nil, nofun, Nat.le_refl _⟩

theorem ascends_one {d : Desk} {last : Nat} (h : d.nextValue.2.scanner.line ≤ last) :
    Ascends d.scanner.line last [d] := by
  refine ⟨List.pairwise_singleton _ _, ?_, Nat.le_trans d.line_nextValue_le h⟩
  intro e he
  obtain rfl := List.mem_singleton.mp he
  exact ⟨e.line_nextValue_le, h⟩

theorem line_turn_le (s : Session) : s.desk.nextValue.2.scanner.line ≤ s.turn.2.desk.scanner.line := by
  unfold turn nextValue
  rcases hn : s.desk.nextValue with ⟨f | _ | v, after⟩
  · dsimp only
    split
    · unfold recover
      split
      · exact Nat.le_refl _
      · exact line_skipPast_le _ _
    · exact Nat.le_refl _
  · exact Nat.le_refl _
  · have hdesk : (printValue v { s with desk := after }).2.desk = after := desk_printValue v _
    exact Nat.le_of_eq (congrArg (·.scanner.line) hdesk.symm)

theorem ascends_run (s : Session) : Ascends s.desk.scanner.line s.run.2.desk.scanner.line s.asked := by
  fun_induction run s with
  | case1 s ending after hn =>
    have h := line_turn_le s
    rw [hn] at h
    rw [asked_of_end (congrArg Prod.fst hn)]
    exact ascends_one h
  | case2 s after hn ih =>
    have h := line_turn_le s
    rw [hn] at h
    rw [asked_of_goes (congrArg Prod.fst hn), hn]
    exact (ascends_one h).append ih

theorem ascends_perform (s : Session) (call : Call) :
    Ascends s.desk.scanner.line (s.perform call).desk.scanner.line (s.asks call) := by
  cases call with
  | nextValue => exact ascends_one (Nat.le_refl _)
  | turn => exact ascends_one (line_turn_le s)
  | run => exact ascends_run s
  | banner => exact ascends_nil _
  | equip precision out err => exact ascends_nil _

theorem ascends_performAll (s : Session) (calls : List Call) :
    Ascends s.desk.scanner.line (s.performAll calls).desk.scanner.line (s.asksAll calls) := by
  induction calls generalizing s with
  | nil => exact ascends_nil _
  | cons call calls ih => exact (ascends_perform s call).append (ih (s.perform call))

/-- After any calls over a source none of whose reads fail, and in a run that follows: whatever
    fails is a mistake on the line of the last lexeme that was read, which it concerns; the lines
    of the mistakes, one after another, never go back; and the run reports its mistakes, each with
    its line, unless the error output fails. -/
theorem mistakes_on_their_lines (chunks : List (List UInt8)) (precision : Nat) (out err : Sink) (calls : List Call) :
    let text := Utf8.decode chunks.flatten
    let first := fresh (chunks.map .bytes) precision out err
    let s := first.performAll calls
    let desks := first.asksAll calls ++ s.asked
    (∀ d ∈ desks, ∀ f, d.nextValue.1 = .error f → ∃ line m, f = .mistake line m ∧ d.OnLine text line m) ∧
      ((desks.filterMap Desk.mistake?).map Prod.fst).Pairwise (· ≤ ·) ∧
        s.run.2.err = s.err.extended (reported s.asked) := by
  intro text first s desks
  have hfirst : Due text 0 first.desk.scanner := .unread (at_ofPieces chunks)
  obtain ⟨hcalls, k, hk⟩ := due_performAll hfirst calls
  have hdue : ∀ d ∈ desks, ∃ k, Due text k d.scanner := by
    intro d hd
    rcases List.mem_append.mp hd with hd | hd
    · exact hcalls d hd
    · exact (due_run hk).1 d hd
  refine ⟨?_, ?_, err_run s⟩
  · intro d hd f hf
    obtain ⟨k, hk⟩ := hdue d hd
    exact Desk.onLine_of_error hk hf
  · have hsorted := ((ascends_performAll first calls).append (ascends_run s)).sorted
    have hline : ∀ d ∈ desks, ∀ x, d.mistake? = some x → x.1 = d.nextValue.2.scanner.line := by
      intro d hd x hx
      obtain ⟨k, hk⟩ := hdue d hd
      obtain ⟨line, m, he, hon⟩ := Desk.onLine_of_error hk (Desk.error_of_mistake? hx)
      obtain ⟨rfl, -⟩ := Failure.mistake.inj he
      exact hon.line
    rw [List.pairwise_map, List.pairwise_filterMap]
    refine List.Pairwise.imp_of_mem ?_ (List.pairwise_map.mp hsorted)
    intro d e hd he hle x hx y hy
    rw [hline d hd x hx, hline e he y hy]
    exact hle

/-- The zero stands on the second line, the bracket behind the argument of the root on the fourth,
    and so does the name. -/
theorem mistakes_on_their_lines_divided :
    let source := "1 +\n2 / 0 3\n= sqrt(0 - 1\n) = y"
    let text := Utf8.decode [source.toUTF8.toList].flatten
    let s := fresh (Source.ofString source) defaultPrecision {} {}
    let number (n : Nat) := (⟨n, 0⟩ : Decimal).toBinary64
    s.asked.filterMap Desk.mistake? =
        [(2, .divisionByZero), (4, .negativeRoot (number 1).neg), (4, .undeclared "y")] ∧
      (∀ d ∈ s.asked, ∀ f, d.nextValue.1 = .error f → ∃ line m, f = .mistake line m ∧ d.OnLine text line m) ∧
        s.run.2.err = s.err.extended (reported s.asked) := by
  intro source text s number
  obtain ⟨hon, -, herr⟩ := mistakes_on_their_lines [source.toUTF8.toList] defaultPrecision {} {} []
  have hasked : s.asked.filterMap Desk.mistake? =
      [(2, .divisionByZero), (4, .negativeRoot (number 1).neg), (4, .undeclared "y")] := by decide +kernel
  exact ⟨hasked, hon, herr⟩

end Session

end Reckoner
