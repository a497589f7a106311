/-
  Reckoner.Proofs.Commands — what a command writes, and its exit code.

  A command writes the banner, if it is wanted, and runs one session. The session cannot fail to
  write, so that its run ends in one of three ways: it finishes, whatever mistakes were made; a read
  fails; or a result cannot be printed. Each has an exit code of its own, and in each what was
  written before stays written.

  - `run_behind`: what stands in the output before a run makes no difference to it.
  - `breaks_of_failed`: a turn that fails has met a read that fails.
  - `runEnds_run`: the three ways, by induction over the turns.
  - `perform_reports`: the exit code and both outputs, for all options and at every place.
-/

import Reckoner.Command
import Reckoner.Proofs.FailedReads
import Reckoner.Proofs.Lookahead
import Reckoner.Proofs.Resuming

namespace Reckoner

open Scanner

/-! ## Failed reads -/

def Read.failure? : Read → Option String
  | .line _ => none
  | .failure message => some message

/-- The failures among some reads. -/
def failures (reads : List Read) : List String := reads.filterMap Read.failure?

theorem failures_append (a b : List Read) : failures (a ++ b) = failures a ++ failures b := List.filterMap_append

theorem failures_lines (lines : List (List Char)) : failures (lines.map .line) = [] := by
  induction lines with
  | nil => rfl
  | cons line lines ih => exact ih

theorem failures_goes {s t : Scanner} (h : s.Goes t) : failures s.reads = failures t.reads := by
  obtain ⟨lines, hr, -⟩ := h.lines
  rw [hr, failures_append, failures_lines, List.nil_append]

theorem failures_breaks {s t : Scanner} {message : String} (h : s.Breaks message t) :
    failures s.reads = message :: failures t.reads := by
  obtain ⟨lines, after, hr, rfl⟩ := h
  rw [hr, failures_append, failures_lines, List.nil_append]
  rfl

/-- No scanner is both behind a failed read and behind lines alone. -/
theorem not_goes_of_breaks {s t : Scanner} {message : String} (h : s.Breaks message t) : ¬ s.Goes t := by
  intro hg
  have hlength := congrArg List.length ((failures_goes hg).symm.trans (failures_breaks h))
  rw [List.length_cons] at hlength
  omega

theorem Desk.nextValue_of_value? {d : Desk} {v : Binary64} (h : d.value? = some v) :
    d.nextValue = (.ok (some v), d.nextValue.2) := by
  unfold value? at h
  split at h
  · rename_i hn
    rw [← h, ← hn]
  · cases h

namespace Session

/-! ## Output that is there already -/

/-- The session with `text` in its output before everything else. -/
def behind (text : String) (s : Session) : Session := { s with out.text := text ++ s.out.text }

variable (text : String) (s : Session)

theorem printValue_behind (v : Binary64) :
    (s.behind text).printValue v = ((s.printValue v).1, (s.printValue v).2.behind text) := by
  have hprecision : (s.behind text).precision = s.precision := rfl
  rw [printValue, printValue, hprecision]
  rcases resultLine? s.precision v with _ | line
  · rfl
  · have hfault : (s.behind text).out.writeFault = s.out.writeFault := rfl
    simp only [Sink.writeLine, Sink.write, hfault]
    rcases s.out.writeFault with _ | message
    · simp only [behind, String.append_assoc]
    · rfl

theorem recover_behind (f : Failure) :
    (s.behind text).recover f = ((s.recover f).1, (s.recover f).2.behind text) := by
  have herr : (s.behind text).err = s.err := rfl
  rw [recover, recover, herr]
  rcases s.err.writeLine f.message with ⟨g | u, err⟩ <;> rfl

theorem turn_behind : (s.behind text).turn = (s.turn.1, s.turn.2.behind text) := by
  have hnext : (s.behind text).nextValue = (s.nextValue.1, s.nextValue.2.behind text) := rfl
  rw [turn, turn, hnext]
  rcases s.nextValue with ⟨f | _ | v, after⟩
  · by_cases hf : f.isRecoverable = true
    · simp only [if_pos hf]
      exact recover_behind text after f
    · simp only [if_neg hf]
  · rfl
  · exact printValue_behind text after v

theorem run_behind : (s.behind text).run = (s.run.1, s.run.2.behind text) := by
  fun_induction run s with
  | case1 s ending after hn =>
    have ht := turn_behind text s
    rw [hn] at ht
    rw [run_of_end (congrArg Prod.fst ht), ht]
  | case2 s after hn ih =>
    have ht := turn_behind text s
    rw [hn] at ht
    rw [run_of_goes (congrArg Prod.fst ht), ht]
    exact ih

/-! ## Turns of a session that can write -/

/-- Nothing is in the way of what the session writes. -/
structure Writes (s : Session) : Prop where
  out : s.out.Works
  err : s.err.Works

variable {text : String} {s : Session}

theorem Writes.turn (h : s.Writes) : s.turn.2.Writes := by
  have hprints := printsAs_turn s
  have herr := err_turn s
  refine ⟨⟨hprints.write.trans h.out.write, hprints.flush.trans h.out.flush⟩, ⟨?_, ?_⟩⟩
  · rw [herr, Sink.writeFault_extended]
    exact h.err.write
  · rw [herr, Sink.flushFault_extended]
    exact h.err.flush

/-- Where a run has no line to print: a value that the desk gives, at this precision. -/
def Unprintable (precision : Nat) (d : Desk) : Prop := ∃ v, d.value? = some v ∧ resultLine? precision v = none

/-- At a precision that can be written every value has a line. -/
theorem not_unprintable_of_le {precision : Nat} (h : precision ≤ maxPrecision) (d : Desk) :
    ¬ Unprintable precision d := by
  rintro ⟨v, -, hline⟩
  obtain ⟨line, hl⟩ := exists_resultLine? h v
  rw [hline] at hl
  cases hl

theorem printValue_of_none {v : Binary64} (h : resultLine? s.precision v = none) :
    s.printValue v = (some .unprintable, s) := by
  rw [printValue, h]

/-- A turn whose value has no line ends the run, and writes nothing. -/
theorem turn_of_unprintable (h : Unprintable s.precision s.desk) :
    s.turn = (some .unprintable, { s with desk := s.desk.nextValue.2 }) := by
  obtain ⟨v, hv, hline⟩ := h
  rw [turn_of_value (Desk.nextValue_of_value? hv)]
  exact printValue_of_none hline

theorem unprintable_of_turn (h : s.turn.1 = some .unprintable) : Unprintable s.precision s.desk := by
  have hproceed (r : Except Failure Unit) : proceed r ≠ some .unprintable := by
    intro hp
    cases r <;> cases hp
  rcases hn : s.desk.nextValue with ⟨f | _ | v, after⟩
  · rw [turn, nextValue, hn] at h
    dsimp only at h
    split at h
    · unfold recover at h
      split at h
      · cases h
      · exact absurd h (hproceed _)
    · cases h
  · rw [turn_of_end hn, close] at h
    cases hf : s.out.flush <;> rw [hf] at h <;> cases h
  · refine ⟨v, by rw [Desk.value?, hn], ?_⟩
    rw [turn_of_value hn, printValue] at h
    split at h
    · assumption
    · exact absurd h (hproceed _)

theorem recover_of_writes (h : s.Writes) (f : Failure) :
    s.recover f = (proceed (s.desk.scanner.skipPast Symbol.equals.char).1,
      { s with err := { s.err with text := s.err.text ++ (f.message ++ "\n") }
               desk.scanner := (s.desk.scanner.skipPast Symbol.equals.char).2 }) := by
  rw [recover, Sink.writeLine_of_works h.err]

/-- A turn that fails has met a read that fails. -/
theorem breaks_of_failed (h : s.Writes) {f : Failure} (hf : s.turn.1 = some (.failed f)) :
    ∃ message scanner, s.desk.scanner.Breaks message scanner ∧
      s.turn = (some (.failed (.io message)), s.brokenOff scanner) := by
  have hbreaks : ∃ message, s.desk.scanner.Breaks message s.turn.2.desk.scanner := by
    have hgoes := s.desk.comes_nextValue
    rcases hn : s.desk.nextValue with ⟨(⟨line, m⟩ | line | message) | _ | v, after⟩
    · rw [hn] at hgoes
      have hw : ({ s with desk := after } : Session).Writes := ⟨h.out, h.err⟩
      rw [turn_of_mistake hn, recover_of_writes hw] at hf ⊢
      have hskip := comes_skipPast Symbol.equals.char after.scanner
      rcases hs : after.scanner.skipPast Symbol.equals.char with ⟨g | u, scanner⟩
      · obtain ⟨message, rfl⟩ := io_of_skipPast (congrArg Prod.fst hs)
        rw [hs] at hskip
        exact ⟨message, Goes.breaks hgoes hskip⟩
      · dsimp only at hf
        rw [hs] at hf
        cases hf
    · exact absurd (congrArg Prod.fst hn) (s.desk.nextValue_ne_heldTwice line)
    · rw [hn] at hgoes
      refine ⟨message, ?_⟩
      rw [turn, nextValue, hn]
      exact hgoes
    · have hw : ({ s with desk := after } : Session).Writes := ⟨h.out, h.err⟩
      rw [turn_of_end hn, close, Sink.flush, hw.out.flush] at hf
      cases hf
    · have hw : ({ s with desk := after } : Session).Writes := ⟨h.out, h.err⟩
      rw [turn_of_value hn, printValue] at hf
      split at hf
      · cases hf
      · rw [Sink.writeLine_of_works hw.out] at hf
        cases hf
  obtain ⟨message, hb⟩ := hbreaks
  have hc := turnComes_turn s
  rcases ht : s.turn with ⟨ending, after⟩
  rw [ht] at hc hb
  cases hc with
  | goes hg => exact absurd hg (not_goes_of_breaks hb)
  | breaks hb' => exact ⟨_, _, hb', rfl⟩

theorem goes_of_not_failed (hf : ∀ f, s.turn.1 ≠ some (.failed f)) : s.desk.scanner.Goes s.turn.2.desk.scanner := by
  have hc := turnComes_turn s
  rcases ht : s.turn with ⟨ending, after⟩
  rw [ht] at hc hf
  cases hc with
  | goes hg => exact hg
  | breaks => exact absurd rfl (hf _)

/-! ## Runs of a session that can write -/

theorem Turns.writes {u : Session} (h : s.Turns u) (hs : s.Writes) : u.Writes := by
  induction h with
  | none => exact hs
  | more _ _ ih => exact ih hs.turn

theorem desk_mem_asked (s : Session) : s.desk ∈ s.asked := by
  rcases h : s.turn.1 with _ | ending
  · rw [asked_of_goes h]
    exact List.mem_cons_self
  · rw [asked_of_end h]
    exact List.mem_cons_self

theorem Turns.mem_asked {u : Session} (h : s.Turns u) : u.desk ∈ s.asked := by
  induction h with
  | none s => exact s.desk_mem_asked
  | more hn _ ih =>
    rw [asked_of_goes hn]
    exact List.mem_cons_of_mem _ ih

/-- What a run comes to when nothing is in the way of what is written. -/
inductive RunEnds (s : Session) : Prop
  | finishes (h : s.run.1 = .finished) (read : s.desk.scanner.Goes s.run.2.desk.scanner)
    (printable : ∀ d ∈ s.asked, ¬ Unprintable s.precision d)
  | breaks {u : Session} {message : String} {scanner : Scanner} (turns : s.Turns u)
    (read : s.desk.scanner.Goes u.desk.scanner) (h : u.desk.scanner.Breaks message scanner)
    (run : s.run = (.failed (.io message), u.brokenOff scanner)) (printable : ∀ d ∈ s.asked, ¬ Unprintable s.precision d)
  | unprintable {u : Session} (turns : s.Turns u) (h : Unprintable s.precision u.desk)
    (read : s.desk.scanner.Goes s.run.2.desk.scanner)
    (run : s.run = (.unprintable, { u with desk := u.desk.nextValue.2 }))
    (only : ∀ d ∈ s.asked, Unprintable s.precision d → d = u.desk)

theorem runEnds_run (h : s.Writes) : s.RunEnds := by
  fun_induction run s with
  | case1 s ending after hn =>
    have hturn : s.turn.1 = some ending := congrArg Prod.fst hn
    have hrun := run_of_end hturn
    have hasked : ∀ d ∈ s.asked, d = s.desk := by
      intro d hd
      rw [asked_of_end hturn] at hd
      exact List.mem_singleton.mp hd
    have hprintable (hne : ending ≠ .unprintable) : ∀ d ∈ s.asked, ¬ Unprintable s.precision d := by
      intro d hd hd'
      rw [hasked d hd] at hd'
      rw [turn_of_unprintable hd'] at hturn
      exact hne (Option.some.inj hturn).symm
    cases ending with
    | finished =>
      have hgoes := goes_of_not_failed (s := s) (by rw [hturn]; exact fun f => by simp)
      rw [← congrArg Prod.snd hrun] at hgoes
      exact .finishes (congrArg Prod.fst hrun) hgoes (hprintable (by simp))
    | failed f =>
      obtain ⟨message, scanner, hb, ht⟩ := breaks_of_failed h hturn
      have hf : Ending.failed f = .failed (.io message) := Option.some.inj (hturn.symm.trans (congrArg Prod.fst ht))
      refine .breaks (.none s) (goes_of_reads rfl rfl rfl) hb ?_ (hprintable (by simp))
      rw [hrun, hf, ht]
    | unprintable =>
      have hgoes := goes_of_not_failed (s := s) (by rw [hturn]; exact fun f => by simp)
      rw [← congrArg Prod.snd hrun] at hgoes
      have hvalue := unprintable_of_turn hturn
      refine .unprintable (.none s) hvalue hgoes ?_ fun d hd _ => hasked d hd
      rw [hrun, turn_of_unprintable hvalue]
  | case2 s after hn ih =>
    have hturn : s.turn.1 = none := congrArg Prod.fst hn
    have hrun := run_of_goes hturn
    have hgoes := goes_of_not_failed (s := s) (by rw [hturn]; exact fun f => by simp)
    have hprecision := (printsAs_turn s).precision
    have hwrites := h.turn
    have hasked := asked_of_goes hturn
    have hhere : ¬ Unprintable s.precision s.desk := by
      intro hu
      rw [turn_of_unprintable hu] at hturn
      cases hturn
    rw [hn] at hrun hgoes hprecision hwrites hasked
    have hall (hp : ∀ d ∈ after.asked, ¬ Unprintable after.precision d) :
        ∀ d ∈ s.asked, ¬ Unprintable s.precision d := by
      rw [hasked, ← hprecision]
      exact List.forall_mem_cons.mpr ⟨hprecision ▸ hhere, hp⟩
    have hturns {u : Session} (hu : after.Turns u) : s.Turns u := .more hturn (by rwa [hn])
    cases ih hwrites with
    | finishes hend read printable =>
      exact .finishes (hrun ▸ hend) (hrun ▸ hgoes.trans read) (hall printable)
    | breaks turns read hb hlast printable =>
      exact .breaks (hturns turns) (hgoes.trans read) hb (hrun.trans hlast) (hall printable)
    | @unprintable u turns hvalue read hlast only =>
      refine .unprintable (hturns turns) (hprecision ▸ hvalue) (hrun ▸ hgoes.trans read) (hrun.trans hlast) ?_
      rw [hasked, ← hprecision]
      exact List.forall_mem_cons.mpr ⟨fun hu => absurd (hprecision ▸ hu) hhere, only⟩

/-! ## What a run has met -/

/-- The failures among the reads that a run takes. -/
def met (s : Session) : List String :=
  failures (s.desk.scanner.reads.take (s.desk.scanner.reads.length - s.run.2.desk.scanner.reads.length))

theorem met_of_reads {taken : List Read} (h : s.desk.scanner.reads = taken ++ s.run.2.desk.scanner.reads) :
    s.met = failures taken := by
  rw [met, h, List.length_append, Nat.add_sub_cancel, List.take_left]

theorem met_of_goes (h : s.desk.scanner.Goes s.run.2.desk.scanner) : s.met = [] := by
  obtain ⟨lines, hr, -⟩ := h.lines
  rw [met_of_reads hr, failures_lines]

theorem met_of_breaks {message : String} {rest : Scanner} (h : s.desk.scanner.Breaks message rest)
    (hrest : s.run.2.desk.scanner = rest) : s.met = [message] := by
  obtain ⟨lines, after, hr, rfl⟩ := h
  have hafter : s.run.2.desk.scanner.reads = after := congrArg Scanner.reads hrest
  have htaken : s.desk.scanner.reads = lines.map .line ++ [.failure message] ++ s.run.2.desk.scanner.reads := by
    rw [hafter, hr, List.append_assoc]
    rfl
  rw [met_of_reads htaken, failures_append, failures_lines]
  rfl

/-- Mistakes alone do not keep a run from finishing. -/
theorem finished_of_met (h : s.Writes) (hmet : s.met = []) (hp : ∀ d ∈ s.asked, ¬ Unprintable s.precision d) :
    s.run.1 = .finished := by
  cases s.runEnds_run h with
  | finishes hend _ _ => exact hend
  | breaks turns read hbreaks hrun _ =>
    rw [met_of_breaks (read.breaks hbreaks) (congrArg (·.2.desk.scanner) hrun)] at hmet
    cases hmet
  | unprintable turns hvalue _ _ _ => exact absurd hvalue (hp _ turns.mem_asked)

/-- A failed read that is met ends the run. What is left is the session before the turn that met it,
    but for the scanner, and with the mistake reported behind which was being skipped. -/
theorem failed_of_met {pieces : List Piece} (h : s.Writes) (ho : s.desk.scanner.Over pieces) {message : String}
    (hm : message ∈ s.met) :
    s.run.1 = .failed (.io message) ∧ ∃ u rest, s.Turns u ∧ u.desk.scanner.Fails pieces message rest ∧
      s.run.2 = { u with desk.scanner := rest, err.text := u.err.text ++ reported [u.desk] } := by
  cases s.runEnds_run h with
  | finishes _ read _ =>
    rw [met_of_goes read] at hm
    cases hm
  | @breaks u _ rest turns read hbreaks hrun _ =>
    rw [met_of_breaks (read.breaks hbreaks) (congrArg (·.2.desk.scanner) hrun)] at hm
    obtain rfl := List.mem_singleton.mp hm
    refine ⟨congrArg Prod.fst hrun, u, rest, turns, hbreaks.fails (read.over ho), ?_⟩
    rw [hrun, brokenOff, Sink.extended, if_pos (turns.writes h).err.write]
  | unprintable _ _ read _ _ =>
    rw [met_of_goes read] at hm
    cases hm

/-- A value without a line ends the run, and what was written before is left. -/
theorem unprintable_of_asked (h : s.Writes) {d : Desk} (hd : d ∈ s.asked) (hu : Unprintable s.precision d) :
    s.run.1 = .unprintable ∧ ∃ u, s.Turns u ∧ u.desk = d ∧ s.run.2 = { u with desk := d.nextValue.2 } := by
  cases s.runEnds_run h with
  | finishes _ _ printable => exact absurd hu (printable d hd)
  | breaks _ _ _ _ printable => exact absurd hu (printable d hd)
  | @unprintable u turns _ _ hrun only =>
    obtain rfl := only d hd hu
    exact ⟨congrArg Prod.fst hrun, u, turns, rfl, congrArg Prod.snd hrun⟩

/-- What was printed is made of complete lines, one for each value that was shown. -/
theorem out_of_shown (s : Session) :
    ∃ lines, s.shown.mapM (resultLine? s.precision) = some lines ∧
      s.run.2.out.text = s.out.text ++ String.join (lines.map (· ++ "\n")) := by
  obtain ⟨lines, hlines, hjoin⟩ := mapM_of_lines fun v hv => line_of_shown (s := s) hv
  exact ⟨lines, hlines, by rw [out_run s, hjoin]⟩

/-! ## Commands -/

/-- What a command writes before its session. -/
def greeting (quiet : Bool) : String := if quiet then "" else banner ++ "\n"

theorem greet_fresh (quiet : Bool) (pieces : List Piece) (precision : Nat) :
    (fresh pieces precision {} {}).greet quiet =
      (.ok (), (fresh pieces precision {} {}).behind (greeting quiet)) := by
  cases quiet with
  | true => rfl
  | false =>
    have hout : "" ++ (banner ++ "\n") = banner ++ "\n" ++ "" := by
      rw [String.empty_append, String.append_empty]
    show (Except.ok (), { fresh pieces precision {} {} with out.text := "" ++ (banner ++ "\n") }) = _
    rw [hout]
    rfl

theorem report_behind (text : String) (panicReport : List String) (ending : Ending) (s : Session) :
    (s.behind text).report panicReport ending =
      ⟨text ++ s.out.text, s.err.text ++ String.join ((closing panicReport ending).1.map (· ++ "\n")),
        (closing panicReport ending).2⟩ := rfl

end Session

namespace Command

variable {place : Place} {o : Options}

/-- A command reports on the run of its session, behind the greeting. -/
theorem drive_eq (panicReport : List String) (o : Options) (pieces : List Piece) :
    let s := Session.fresh pieces o.precision {} {}
    drive panicReport o pieces = (s.run.2.behind (Session.greeting o.quiet)).report panicReport s.run.1 := by
  intro s
  have hopened : Session.opened o.precision pieces = s := rfl
  rw [drive, hopened, Session.greet_fresh]
  dsimp only
  rw [Session.run_behind]

/-- `pieces` is the source of a command that was told to read `file`, or the standard input. -/
def Gives (place : Place) (file : Option String) (pieces : List Piece) : Prop :=
  match file with
  | none => pieces = place.stdin
  | some path => place.openPath path = .source pieces

theorem perform_of_gives {pieces : List Piece} (h : Gives place o.file pieces) :
    perform place o = drive place.panicReport o pieces := by
  rw [perform]
  rcases hf : o.file with _ | path
  · rw [hf] at h
    rw [show pieces = place.stdin from h]
  · rw [hf] at h
    have hopen : place.openPath path = .source pieces := h
    dsimp only
    rw [hopen]

/-- A command with any options, over any source. If its file is refused, only that is reported.
    Otherwise there is a session over the source, at the precision, and before it the banner, unless
    it is not wanted. If the session meets no failed read and no value without a line, the exit code
    is 0 and nothing is added to its texts, whatever mistakes are made. If it meets a failed read,
    the code is 1: its texts are those after the turns before, with the mistake that was being
    skipped, and the failure is one more line. If it meets a value without a line, the code is 2: its
    output is the complete lines of the values before, and its error text is followed by the lines that
    a panic writes at this place and by the line `exception`. -/
theorem perform_reports (place : Place) (o : Options) :
    (∀ path reason, o.file = some path → place.openPath path = .refused reason →
      perform place o =
        ⟨"", "I/O error: Failed to read the input file '" ++ path ++ "': " ++ reason ++ "\n", 1⟩) ∧
    ∀ pieces, Gives place o.file pieces →
      let s := Session.fresh pieces o.precision {} {}
      let greeting := Session.greeting o.quiet
      (s.met = [] → (∀ d ∈ s.asked, ¬ Session.Unprintable s.precision d) →
        perform place o = ⟨greeting ++ s.run.2.out.text, s.run.2.err.text, 0⟩) ∧
      (∀ message ∈ s.met, ∃ u rest, s.Turns u ∧ u.desk.scanner.Fails pieces message rest ∧
        s.run.2 = { u with desk.scanner := rest, err.text := u.err.text ++ Session.reported [u.desk] } ∧
          perform place o =
            ⟨greeting ++ s.run.2.out.text, s.run.2.err.text ++ "I/O error: " ++ message ++ "\n", 1⟩) ∧
      ∀ d ∈ s.asked, Session.Unprintable s.precision d →
        ∃ u lines, s.Turns u ∧ u.desk = d ∧ s.run.2 = { u with desk := d.nextValue.2 } ∧
          s.shown.mapM (Session.resultLine? s.precision) = some lines ∧
            s.run.2.out.text = String.join (lines.map (· ++ "\n")) ∧
              perform place o =
                ⟨greeting ++ s.run.2.out.text,
                  s.run.2.err.text ++ String.join ((place.panicReport ++ ["exception"]).map (· ++ "\n")), 2⟩ := by
  constructor
  · intro path reason hfile hopen
    have hmessage : (unreadable path reason).message =
        "I/O error: Failed to read the input file '" ++ path ++ "': " ++ reason := by
      simp only [unreadable, Failure.message, ← String.append_assoc]
      rfl
    rw [perform, hfile]
    dsimp only
    rw [hopen]
    dsimp only
    rw [refuse, hmessage]
  · intro pieces hgives s greeting
    have hwrites : s.Writes := ⟨⟨rfl, rfl⟩, ⟨rfl, rfl⟩⟩
    have hperform : perform place o = ⟨greeting ++ s.run.2.out.text,
        s.run.2.err.text ++ String.join ((Session.closing place.panicReport s.run.1).1.map (· ++ "\n")),
        (Session.closing place.panicReport s.run.1).2⟩ := by
      rw [perform_of_gives hgives, drive_eq, Session.report_behind]
    rw [hperform]
    refine ⟨?_, ?_, ?_⟩
    · intro hmet hprintable
      rw [Session.finished_of_met hwrites hmet hprintable]
      show Report.mk _ (_ ++ "") 0 = _
      rw [String.append_empty]
    · intro message hm
      obtain ⟨hend, u, rest, turns, hfails, hrun⟩ := Session.failed_of_met hwrites (over_ofPieces pieces) hm
      refine ⟨u, rest, turns, hfails, hrun, ?_⟩
      have hline : String.join ([("I/O error: " ++ message)].map (· ++ "\n")) = "I/O error: " ++ message ++ "\n" :=
        String.empty_append
      have hclosing : (Session.closing place.panicReport (.failed (.io message))).1 = ["I/O error: " ++ message] := rfl
      rw [hend, hclosing, hline]
      simp only [Session.closing, String.append_assoc]
    · intro d hd hu
      obtain ⟨hend, u, turns, hdesk, hrun⟩ := Session.unprintable_of_asked hwrites hd hu
      obtain ⟨lines, hlines, hout⟩ := Session.out_of_shown s
      refine ⟨u, lines, turns, hdesk, hrun, hlines, hout.trans String.empty_append, ?_⟩
      rw [hend]
      rfl

/-- A file that is not there; two mistakes; a read that fails behind a third one; and a number that
    is asked for with more digits than can be written, behind a zero, which has one anyway. -/
theorem perform_reports_each_exit :
    let place (pieces : List Piece) : Place :=
      { openPath := fun _ => Folder.missing, stdin := pieces, panicReport := ["thread 'main' panicked"] }
    perform (place []) { file := some "gone", quiet := true } =
      ⟨"", "I/O error: Failed to read the input file 'gone': No such file or directory (os error 2)\n", 1⟩ ∧
    perform (place (Source.ofString "1/0 = 2/3 = x")) { precision := 3 } =
      ⟨Session.banner ++ "\n" ++ "=0.667\n",
        "Error on line 1: Division by zero.\nError on line 1: Undefined variable 'x'.\n", 0⟩ ∧
    perform (place (Source.ofString "2 = x +\n3" ++ [.failure "unplugged"])) { quiet := true } =
      ⟨"=2\n", "Error on line 1: Undefined variable 'x'.\nI/O error: unplugged\n", 1⟩ ∧
    perform (place (Source.ofString "let x = 0 = 1 = 2")) { quiet := true, precision := 70000 } =
      ⟨"=0\n", "thread 'main' panicked\nexception\n", 2⟩ := by
  intro place
  refine ⟨?_, ?_, ?_, ?_⟩
  · obtain ⟨hrefused, -⟩ := perform_reports (place []) { file := some "gone", quiet := true }
    exact hrefused "gone" _ rfl rfl
  · obtain ⟨-, hsource⟩ := perform_reports (place (Source.ofString "1/0 = 2/3 = x")) { precision := 3 }
    obtain ⟨hfinishes, -, -⟩ := hsource _ rfl
    rw [hfinishes (by decide +kernel) fun d _ => Session.not_unprintable_of_le (by decide) d]
    decide +kernel
  · obtain ⟨-, hsource⟩ := perform_reports (place (Source.ofString "2 = x +\n3" ++ [.failure "unplugged"]))
      { quiet := true }
    obtain ⟨-, hbreaks, -⟩ := hsource _ rfl
    obtain ⟨u, rest, -, -, -, hperform⟩ := hbreaks "unplugged" (by decide +kernel)
    rw [hperform]
    decide +kernel
  · obtain ⟨-, hsource⟩ := perform_reports (place (Source.ofString "let x = 0 = 1 = 2"))
      { quiet := true, precision := 70000 }
    obtain ⟨-, -, hunprintable⟩ := hsource _ rfl
    -- the second turn is the one that asks for the digits
    let second := ((Session.fresh (Source.ofString "let x = 0 = 1 = 2") 70000 {} {}).performAll [.turn]).desk
    have hvalue : Session.Unprintable 70000 second := by
      refine ⟨(⟨1, 0⟩ : Decimal).toBinary64, ?_, ?_⟩
      · decide +kernel
      · decide +kernel
    obtain ⟨u, lines, -, -, -, -, -, hperform⟩ := hunprintable second (by decide +kernel) hvalue
    rw [hperform]
    decide +kernel

end Command

end Reckoner
