/-
  Reckoner.Proofs.Resuming — a run that is interrupted, and called again.

  A result may have no line, and the output may fail to take it. Either ends a run at a statement
  that is done: it was read, its variable is bound, and the token behind it waits to be read again.
  So the next call begins where a run that is not disturbed goes on.

  - `turn_beside`, `run_beside`: a run whose output may fail, beside one with nothing in its way.
  - `interrupted_run_resumes`: however often it is interrupted, for every source and every precision.
-/

import Reckoner.Proofs.Asked
import Reckoner.Proofs.ReadBack

namespace Reckoner

variable {reads : List Read}

namespace Session

variable {s t u : Session} {v : Binary64} {ending : Ending}

/-! ## Interruptions -/

/-- How a run ends at the value `v`, of which nothing is written. -/
inductive Interrupts (s : Session) (v : Binary64) : Ending → Prop
  | unprintable : resultLine? s.precision v = none → Interrupts s v .unprintable
  | unwritten (line message : String) : resultLine? s.precision v = some line → s.out.writeFault = some message →
      Interrupts s v (.failed (.io message))

/-- The run of `s` is interrupted at the value of the last statement that it takes up. -/
def IsInterrupted (s : Session) : Prop :=
  ∃ d v, s.asked.getLast? = some d ∧ d.value? = some v ∧ Interrupts s v s.run.1

theorem IsInterrupted.ne_finished (h : s.IsInterrupted) : s.run.1 ≠ .finished := by
  obtain ⟨d, v, -, -, hi⟩ := h
  intro he
  rw [he] at hi
  cases hi

def withFault (s : Session) (fault : Option String) : Session := { s with out.writeFault := fault }

/-- The session at call `i` of a run that is called again and again, where `faults` tells the calls
    in which the output fails. -/
def recalled (s : Session) (faults : Nat → Option String) : Nat → Session
  | 0 => s.withFault (faults 0)
  | i + 1 => (s.recalled faults i).run.2.withFault (faults (i + 1))

/-! ## What a run leaves as it is -/

/-- `t` prints as `s` does, and its output fails as that of `s`. -/
structure PrintsAs (t s : Session) : Prop where
  precision : t.precision = s.precision
  write : t.out.writeFault = s.out.writeFault
  flush : t.out.flushFault = s.out.flushFault

theorem PrintsAs.trans (h : t.PrintsAs u) (h' : u.PrintsAs s) : t.PrintsAs s :=
  ⟨h.precision.trans h'.precision, h.write.trans h'.write, h.flush.trans h'.flush⟩

theorem PrintsAs.interrupts (h : t.PrintsAs s) (hi : Interrupts t v ending) : Interrupts s v ending := by
  cases hi with
  | unprintable hline => exact .unprintable (h.precision ▸ hline)
  | unwritten line message hline hfault => exact .unwritten line message (h.precision ▸ hline) (h.write ▸ hfault)

theorem printsAs_of_eq (hp : t.precision = s.precision) (ho : t.out = s.out) : t.PrintsAs s :=
  ⟨hp, congrArg _ ho, congrArg _ ho⟩

theorem printsAs_printValue (v : Binary64) (s : Session) : (s.printValue v).2.PrintsAs s := by
  unfold printValue
  split
  · exact printsAs_of_eq rfl rfl
  · rename_i line hline
    have ho := s.out.writeLine_extended line
    refine ⟨rfl, ?_, ?_⟩
    · show (s.out.writeLine line).2.writeFault = s.out.writeFault
      rw [ho, Sink.writeFault_extended]
    · show (s.out.writeLine line).2.flushFault = s.out.flushFault
      rw [ho, Sink.flushFault_extended]

theorem printsAs_recover (f : Failure) (s : Session) : (s.recover f).2.PrintsAs s := by
  unfold recover
  split <;> exact printsAs_of_eq rfl rfl

theorem printsAs_turn (s : Session) : s.turn.2.PrintsAs s := by
  have hself : s.nextValue.2.PrintsAs s := printsAs_of_eq rfl rfl
  unfold turn
  rcases hn : s.nextValue with ⟨f | _ | v, after⟩
  · rw [hn] at hself
    dsimp only
    split
    · exact (printsAs_recover f after).trans hself
    · exact hself
  · rw [hn] at hself
    exact hself
  · rw [hn] at hself
    exact (printsAs_printValue v after).trans hself

theorem printsAs_run (s : Session) : s.run.2.PrintsAs s := by
  fun_induction run s with
  | case1 s ending after hn =>
    have h := printsAs_turn s
    rwa [hn] at h
  | case2 s after hn ih =>
    have h := printsAs_turn s
    rw [hn] at h
    exact ih.trans h

/-! ## What a run prints -/

theorem value?_eq (s : Session) : s.desk.value? = s.nextValue.1.toOption.join := by
  show s.desk.value? = s.desk.nextValue.1.toOption.join
  unfold Desk.value?
  rcases s.desk.nextValue.1 with f | v
  · rfl
  · rfl

theorem asked_ne_nil (s : Session) : s.asked ≠ [] := by
  rcases h : s.turn.1 with _ | ending
  · rw [asked_of_goes h]
    exact List.cons_ne_nil _ _
  · rw [asked_of_end h]
    exact List.cons_ne_nil _ _

/-- A run prints the values of its statements; where it ends, it prints nothing. -/
theorem shown_eq (s : Session) : s.shown = s.asked.dropLast.filterMap Desk.value? := by
  fun_induction asked s with
  | case1 s ending after hn =>
    rw [shown_of_ends (congrArg Prod.fst hn)]
    rfl
  | case2 s after hn ih =>
    have hgoes : s.turn.1 = none := congrArg Prod.fst hn
    rw [shown_of_goes hgoes, hn, ih, ← value?_eq, List.dropLast_cons_of_ne_nil after.asked_ne_nil]
    rw [List.filterMap_cons]
    rcases s.desk.value? with _ | v
    · rfl
    · rfl

/-- A run that goes on has written the line of the value. -/
theorem line_of_goes (h : s.turn.1 = none) (hv : s.desk.value? = some v) :
    ∃ line, resultLine? s.precision v = some line := by
  rw [value?_eq] at hv
  unfold turn at h
  rcases hn : s.nextValue with ⟨f | _ | w, after⟩
  · rw [hn] at hv
    cases hv
  · rw [hn] at hv
    cases hv
  · rw [hn] at h hv
    obtain rfl : w = v := Option.some.inj hv
    have hp : after.precision = s.precision := congrArg (fun n => n.2.precision) hn.symm
    rcases hline : resultLine? s.precision w with _ | line
    · simp [printValue, hp, hline] at h
    · exact ⟨line, rfl⟩

theorem line_of_shown (hv : v ∈ s.shown) : ∃ line, resultLine? s.precision v = some line := by
  fun_induction shown s with
  | case1 s ending after hn => cases hv
  | case2 s after hn ih =>
    rcases List.mem_append.mp hv with hv | hv
    · rw [← value?_eq, Option.mem_toList] at hv
      exact line_of_goes (congrArg Prod.fst hn) hv
    · have hp := (printsAs_turn s).precision
      rw [hn] at hp
      exact hp ▸ ih hv

/-! ## Where a run finishes -/

theorem ne_finished_of_proceed {r : Except Failure Unit} : proceed r ≠ some .finished := by
  intro h
  cases r with
  | ok u => cases h
  | error f => cases h

/-- Only the end of the statements finishes a run. -/
theorem nextValue_of_finished (h : s.turn.1 = some .finished) : s.desk.nextValue.1 = .ok none := by
  show s.nextValue.1 = .ok none
  unfold turn at h
  rcases hn : s.nextValue with ⟨f | _ | v, after⟩
  · rw [hn] at h
    dsimp only at h
    split at h
    · unfold recover at h
      split at h
      · cases h
      · exact absurd h ne_finished_of_proceed
    · cases h
  · rfl
  · rw [hn] at h
    dsimp only at h
    unfold printValue at h
    split at h
    · cases h
    · exact absurd h ne_finished_of_proceed

theorem last_of_finished (h : s.run.1 = .finished) :
    ∃ d, s.asked.getLast? = some d ∧ d.nextValue.1 = .ok none := by
  fun_induction run s with
  | case1 s ending after hn =>
    obtain rfl : ending = .finished := h
    have hturn : s.turn.1 = some .finished := congrArg Prod.fst hn
    rw [asked_of_end hturn]
    exact ⟨s.desk, rfl, nextValue_of_finished hturn⟩
  | case2 s after hn ih =>
    obtain ⟨d, hlast, hend⟩ := ih h
    rw [asked_of_goes (congrArg Prod.fst hn), hn, List.getLast?_cons, hlast]
    exact ⟨d, rfl, hend⟩

/-! ## Side by side -/

/-- Two sessions are at the same place, with the same variables and the same reports. -/
structure Agrees (s u : Session) : Prop where
  desk : s.desk = u.desk
  err : s.err = u.err

/-- `u`, with nothing in its way, stands where `s` stands, of which the output may fail. -/
structure Beside (reads : List Read) (s u : Session) : Prop extends Agrees s u where
  steady : Steady reads u
  flush : s.out.flushFault = none

/-- The undisturbed session goes on, and so does `s`, unless it is interrupted at its value. -/
structure Passes (reads : List Read) (s : Session) (a b : Option Ending × Session) : Prop where
  goes : b.1 = none
  beside : Beside reads a.2 b.2
  interrupted : ∀ ending, a.1 = some ending → ∃ v, s.desk.value? = some v ∧ Interrupts s v ending

theorem Beside.next (h : Beside reads s u) {result : Except Failure (Option Binary64)} {after : Desk}
    (hn : u.desk.nextValue = (result, after)) :
    Beside reads ({ s with desk := after } : Session) ({ u with desk := after } : Session) := by
  have ho := Desk.outcome_nextValue h.steady.kept
  rw [hn] at ho
  exact ⟨⟨rfl, h.err⟩, ⟨ho.kept, h.steady.precision, h.steady.out, h.steady.err⟩, h.flush⟩

theorem printValue_beside (h : Beside reads s u) (v : Binary64) :
    (u.printValue v).1 = none ∧ Beside reads (s.printValue v).2 (u.printValue v).2 ∧
      ∀ ending, (s.printValue v).1 = some ending → Interrupts s v ending := by
  have hw := wrote_printValue h.steady v
  refine ⟨hw.goes, ⟨⟨?_, ?_⟩, hw.steady, ?_⟩, ?_⟩
  · rw [desk_printValue, desk_printValue]
    exact h.desk
  · rw [err_printValue, err_printValue]
    exact h.err
  · rw [(printsAs_printValue v s).flush]
    exact h.flush
  · intro ending he
    unfold printValue at he
    split at he
    · rename_i hline
      cases he
      exact .unprintable hline
    · rename_i line hline
      rcases hf : s.out.writeFault with _ | message
      · simp [Sink.writeLine, Sink.write, hf, proceed] at he
      · have hio : (s.out.writeLine line).1 = .error (.io message) := by rw [Sink.writeLine, Sink.write, hf]
        obtain rfl : Ending.failed (.io message) = ending := by
          dsimp only at he
          rw [hio] at he
          exact Option.some.inj he
        exact .unwritten line message hline hf

theorem recover_beside (hr : AllLines reads) (h : Beside reads s u) (line : Nat) {m : Mistake} (hm : m.Spelled) :
    (s.recover (.mistake line m)).1 = none ∧ (u.recover (.mistake line m)).1 = none ∧
      Beside reads (s.recover (.mistake line m)).2 (u.recover (.mistake line m)).2 := by
  have hw := wrote_recover hr h.steady line hm
  -- Recovering looks at the desk and the error output alone.
  have hs : s.recover (.mistake line m) =
      ((u.recover (.mistake line m)).1,
        { (u.recover (.mistake line m)).2 with precision := s.precision, out := s.out }) := by
    unfold recover
    rw [h.err, h.desk]
    split
    · rfl
    · rfl
  rw [hs]
  exact ⟨hw.goes, hw.goes, ⟨rfl, rfl⟩, hw.steady, h.flush⟩

/-- A turn beside an undisturbed one: both end their runs, or the undisturbed run goes on. -/
theorem turn_beside (hr : AllLines reads) (h : Beside reads s u) :
    (s.turn.1 = some .finished ∧ u.turn.1 = some .finished ∧ s.turn.2.Agrees u.turn.2) ∨
      Passes reads s s.turn u.turn := by
  rcases hu : u.desk.nextValue with ⟨f | _ | v, after⟩
  all_goals
    have hs : s.desk.nextValue = _ := h.desk ▸ hu
    have hafter := h.next hu
  · obtain ⟨line, m, rfl, hm⟩ := ((Desk.outcome_nextValue h.steady.kept).failure f (congrArg Prod.fst hu)).1.mistake hr
    obtain ⟨hgoes, hgoes', hbeside⟩ := recover_beside hr hafter line hm
    rw [turn_of_mistake hs, turn_of_mistake hu]
    refine .inr ⟨hgoes', hbeside, ?_⟩
    intro ending he
    rw [hgoes] at he
    cases he
  · have hclose : ({ s with desk := after } : Session).close = .finished := by
      rw [close, Sink.flush, h.flush]
      rfl
    rw [turn_of_end hs, turn_of_end hu]
    exact .inl ⟨congrArg some hclose, congrArg some (close_of_steady hafter.steady), rfl, h.err⟩
  · obtain ⟨hgoes, hbeside, hends⟩ := printValue_beside hafter v
    rw [turn_of_value hs, turn_of_value hu]
    refine .inr ⟨hgoes, hbeside, ?_⟩
    intro ending he
    have hself : ({ s with desk := after } : Session).PrintsAs s := printsAs_of_eq rfl rfl
    exact ⟨v, by rw [Desk.value?, hs], hself.interrupts (hends ending he)⟩

/-- What a run beside an undisturbed one comes to. -/
inductive RunsBeside (reads : List Read) (s u : Session) : Prop
  /-- It ends as the other does, after the same statements. -/
  | finish (left : s.run.1 = .finished) (right : u.run.1 = .finished) (agrees : s.run.2.Agrees u.run.2)
    (asked : s.asked = u.asked)
  /-- It is interrupted, and stands beside `rest`, what is left of the other. -/
  | interrupted (rest : Session) (h : s.IsInterrupted) (beside : Beside reads s.run.2 rest)
    (run : rest.run = u.run) (asked : s.asked ++ rest.asked = u.asked) (less : rest.unread < u.unread)

theorem IsInterrupted.of_end (h : s.turn.1 = some ending) (hv : s.desk.value? = some v) (hi : Interrupts s v ending) :
    s.IsInterrupted := by
  refine ⟨s.desk, v, ?_, hv, ?_⟩
  · rw [asked_of_end h]
    rfl
  · rw [run_of_end h]
    exact hi

theorem IsInterrupted.of_goes (h : s.turn.1 = none) (hi : s.turn.2.IsInterrupted) : s.IsInterrupted := by
  obtain ⟨d, v, hlast, hv, hends⟩ := hi
  refine ⟨d, v, ?_, hv, ?_⟩
  · rw [asked_of_goes h, List.getLast?_cons, hlast]
    rfl
  · rw [run_of_goes h]
    exact (printsAs_turn s).interrupts hends

/-- What the runs come to behind a turn, they come to before it. -/
theorem RunsBeside.of_goes (hdesk : s.desk = u.desk) (hs : s.turn.1 = none) (hu : u.turn.1 = none)
    (h : RunsBeside reads s.turn.2 u.turn.2) : RunsBeside reads s u := by
  have hasked : s.asked = u.desk :: s.turn.2.asked := by rw [asked_of_goes hs, hdesk]
  have hasked' : u.asked = u.desk :: u.turn.2.asked := asked_of_goes hu
  have hrun : s.run = s.turn.2.run := run_of_goes hs
  have hrun' : u.run = u.turn.2.run := run_of_goes hu
  cases h with
  | finish left right agrees asked =>
    refine .finish (hrun ▸ left) (hrun' ▸ right) ?_ ?_
    · rw [hrun, hrun']
      exact agrees
    · rw [hasked, hasked', asked]
  | interrupted rest hi beside run asked less =>
    refine .interrupted rest (hi.of_goes hs) (hrun ▸ beside) (run.trans hrun'.symm) ?_ ?_
    · rw [hasked, hasked', ← asked]
      rfl
    · exact Nat.lt_trans less (unread_turn_lt hu)

theorem run_beside (hr : AllLines reads) (h : Beside reads s u) : RunsBeside reads s u := by
  fun_induction run s generalizing u with
  | case1 s ending after hn =>
    have hends : s.turn.1 = some ending := congrArg Prod.fst hn
    rcases turn_beside hr h with ⟨hleft, hright, hagrees⟩ | ⟨hgoes, hbeside, hinterrupted⟩
    · refine .finish ?_ ?_ ?_ ?_
      · rw [run_of_end hleft]
      · rw [run_of_end hright]
      · rw [run_of_end hleft, run_of_end hright]
        exact hagrees
      · rw [asked_of_end hleft, asked_of_end hright, h.desk]
    · obtain ⟨v, hv, hi⟩ := hinterrupted ending hends
      refine .interrupted u.turn.2 (.of_end hends hv hi) ?_ ?_ ?_ (unread_turn_lt hgoes)
      · rw [run_of_end hends]
        exact hbeside
      · rw [run_of_goes hgoes]
      · rw [asked_of_end hends, asked_of_goes hgoes, h.desk]
        rfl
  | case2 s after hn ih =>
    have hgoes : s.turn.1 = none := congrArg Prod.fst hn
    have hafter : s.turn.2 = after := congrArg Prod.snd hn
    rcases turn_beside hr h with ⟨hleft, -, -⟩ | ⟨hgoes', hbeside, -⟩
    · rw [hgoes] at hleft
      cases hleft
    · subst hafter
      exact (ih hbeside).of_goes h.desk hgoes hgoes'

/-! ## Called again and again -/

variable {first whole : Session} {faults : Nat → Option String}

theorem precision_recalled (s : Session) (faults : Nat → Option String) (i : Nat) :
    (s.recalled faults i).precision = s.precision := by
  induction i with
  | zero => rfl
  | succ i ih =>
    show (s.recalled faults i).run.2.precision = s.precision
    rw [(printsAs_run _).precision, ih]

/-- The output of the calls, one after another: nothing is taken back. -/
theorem out_recalled (s : Session) (faults : Nat → Option String) (i : Nat) :
    (s.recalled faults i).out.text =
      s.out.text ++ printed s.precision ((List.range i).flatMap fun j => (s.recalled faults j).shown) := by
  induction i with
  | zero => exact String.append_empty.symm
  | succ i ih =>
    show (s.recalled faults i).run.2.out.text = _
    rw [out_run, ih, precision_recalled, List.range_succ, List.flatMap_append, printed_append, String.append_assoc,
      List.flatMap_singleton]

/-- When call `i` begins, `u` is what is left of the undisturbed run. -/
structure Resumed (reads : List Read) (first whole : Session) (faults : Nat → Option String) (i : Nat)
    (u : Session) : Prop where
  beside : Beside reads (first.recalled faults i) u
  interrupted : ∀ j < i, (first.recalled faults j).IsInterrupted
  run : u.run = whole.run
  asked : ((List.range i).flatMap fun j => (first.recalled faults j).asked) ++ u.asked = whole.asked

theorem Beside.withFault (h : Beside reads s u) (fault : Option String) : Beside reads (s.withFault fault) u :=
  ⟨⟨h.desk, h.err⟩, h.steady, h.flush⟩

theorem Resumed.next {i : Nat} {rest : Session} (h : Resumed reads first whole faults i u)
    (hi : (first.recalled faults i).IsInterrupted) (hbeside : Beside reads (first.recalled faults i).run.2 rest)
    (hrun : rest.run = u.run) (hasked : (first.recalled faults i).asked ++ rest.asked = u.asked) :
    Resumed reads first whole faults (i + 1) rest := by
  refine ⟨hbeside.withFault _, ?_, hrun.trans h.run, ?_⟩
  · intro j hj
    rcases Nat.lt_succ_iff_lt_or_eq.mp hj with hj | rfl
    · exact h.interrupted j hj
    · exact hi
  · rw [List.range_succ, List.flatMap_append, List.flatMap_singleton, List.append_assoc, hasked]
    exact h.asked

/-- Every interruption is behind another statement, so the calls come to their end. -/
theorem Resumed.finishes (hr : AllLines reads) {i : Nat} {u : Session} (h : Resumed reads first whole faults i u) :
    ∃ last rest, Resumed reads first whole faults last rest ∧ (first.recalled faults last).run.1 = .finished ∧
      rest.run.1 = .finished ∧ (first.recalled faults last).run.2.Agrees rest.run.2 ∧
        (first.recalled faults last).asked = rest.asked := by
  cases run_beside hr h.beside with
  | finish left right agrees asked => exact ⟨i, u, h, left, right, agrees, asked⟩
  | interrupted rest hi beside run asked less => exact (h.next hi beside run asked).finishes hr
  termination_by u.unread

/-- A run whose output fails in some of its calls, at any precision, called again after every
    interruption, beside one that is not disturbed: some call finishes, and those before it are
    interrupted, each at the value of its last statement. Together the calls take up the statements
    of the undisturbed run, each once and in order, and leave the same variables and the same
    reports. Their output is one line for each value, but for those at which they were interrupted:
    of the last statement of a call nothing is written. -/
theorem interrupted_run_resumes (chunks : List (List UInt8)) (precision : Nat) (faults : Nat → Option String) :
    let whole := fresh (chunks.map .bytes) defaultPrecision {} {}
    let call := (fresh (chunks.map .bytes) precision {} {}).recalled faults
    ∃ last,
      (∀ i < last, (call i).IsInterrupted) ∧ (call last).run.1 = .finished ∧ whole.run.1 = .finished ∧
      (∃ d, (call last).asked.getLast? = some d ∧ d.nextValue.1 = .ok none) ∧
      ((List.range (last + 1)).flatMap fun i => (call i).asked) = whole.asked ∧
      (call last).run.2.desk = whole.run.2.desk ∧ (call last).run.2.err = whole.run.2.err ∧
      (call last).run.2.out.text = printed precision ((List.range (last + 1)).flatMap fun i => (call i).shown) ∧
      ∀ i, (call i).shown = (call i).asked.dropLast.filterMap Desk.value? ∧
        ∀ v ∈ (call i).shown, ∃ line, resultLine? precision v = some line := by
  intro whole call
  have hr : AllLines (Source.reads (chunks.map .bytes)) := Scanner.unbroken_ofPieces chunks
  have hsteady : Steady (Source.reads (chunks.map .bytes)) whole :=
    ⟨kept_fresh _ _ _ _, (by decide : defaultPrecision ≤ maxPrecision), ⟨rfl, rfl⟩, ⟨rfl, rfl⟩⟩
  have hstart : Resumed (Source.reads (chunks.map .bytes)) (fresh (chunks.map .bytes) precision {} {}) whole faults 0
      whole :=
    ⟨⟨⟨rfl, rfl⟩, hsteady, rfl⟩, fun j hj => absurd hj (Nat.not_lt_zero j), rfl, rfl⟩
  obtain ⟨last, rest, h, hleft, hright, hagrees, hasked⟩ := hstart.finishes hr
  refine ⟨last, h.interrupted, hleft, ?_, last_of_finished hleft, ?_, ?_, ?_, ?_, ?_⟩
  · rw [← h.run]
    exact hright
  · rw [List.range_succ, List.flatMap_append, List.flatMap_singleton]
    exact hasked ▸ h.asked
  · rw [← h.run]
    exact hagrees.desk
  · rw [← h.run]
    exact hagrees.err
  · exact (out_recalled _ faults (last + 1)).trans String.empty_append
  · intro i
    refine ⟨shown_eq _, ?_⟩
    intro v hv
    obtain ⟨line, hline⟩ := line_of_shown hv
    rw [precision_recalled] at hline
    exact ⟨line, hline⟩

/-- The output fails in two calls, the second of which binds a variable. The third reports the
    division, and has both lines of the name and the number behind it. -/
theorem interrupted_run_resumes_twice :
    let source := "2 = let x = 3 = 1/0 = x 5"
    let whole := fresh (Source.ofString source) defaultPrecision {} {}
    let call := (fresh (Source.ofString source) 17 {} {}).recalled fun i => if i < 2 then some "full" else none
    (call 0).run.1 = .failed (.io "full") ∧ (call 1).run.1 = .failed (.io "full") ∧ (call 2).run.1 = .finished ∧
      (call 0).asked ++ (call 1).asked ++ (call 2).asked = whole.asked ∧
        (call 2).run.2.desk = whole.run.2.desk ∧ (call 2).run.2.err = whole.run.2.err ∧
          (call 2).run.2.out.text = "=3\n=5\n" ∧ whole.run.2.out.text = "=2\n=3\n=3\n=5\n" := by
  intro source whole call
  have hfirst : (call 0).run.1 = .failed (.io "full") := by decide +kernel
  have hsecond : (call 1).run.1 = .failed (.io "full") := by decide +kernel
  have hthird : (call 2).run.1 = .finished := by decide +kernel
  have hlines : (call 2).run.2.out.text = "=3\n=5\n" ∧ whole.run.2.out.text = "=2\n=3\n=3\n=5\n" := by decide +kernel
  obtain ⟨last, hinterrupted, hleft, -, -, hasked, hdesk, herr, -⟩ :=
    interrupted_run_resumes [source.toUTF8.toList] 17 fun i => if i < 2 then some "full" else none
  have hlast : last = 2 := by
    have hle : last ≤ 2 := by
      by_contra hlt
      exact (hinterrupted 2 (by omega)).ne_finished hthird
    have hne (i : Nat) (f : Failure) (h : (call i).run.1 = .failed f) : last ≠ i := by
      rintro rfl
      cases h.symm.trans hleft
    have hzero := hne 0 _ hfirst
    have hone := hne 1 _ hsecond
    omega
  subst hlast
  refine ⟨hfirst, hsecond, hthird, ?_, hdesk, herr, hlines⟩
  calc (call 0).asked ++ (call 1).asked ++ (call 2).asked
      = (List.range (2 + 1)).flatMap fun i => (call i).asked := by simp [List.range_succ]
    _ = whole.asked := hasked

end Session

end Reckoner
