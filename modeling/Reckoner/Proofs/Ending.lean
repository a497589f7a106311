/-
  Reckoner.Proofs.Ending — every run comes to an end, and nothing but a failed read or write
  comes out of it.

  A turn that does not end the run lowers what is left to read, and writes one line at most. So
  a run over lines, with sinks that work and a precision that can be printed, finishes, and
  writes no more lines than its source has characters.

  - `run_finishes`: for every session, whatever was asked of it before.
-/

import Reckoner.Proofs.Sessions
import Reckoner.Proofs.Written

namespace Reckoner

variable {reads : List Read}

/-! ## Sinks -/

namespace Sink

/-- Writing and flushing do not fail. -/
structure Works (s : Sink) : Prop where
  write : s.writeFault = none
  flush : s.flushFault = none

/-- The lines that were written. -/
def lines (s : Sink) : Nat := s.text.toList.count '\n'

theorem writeLine_of_works {s : Sink} (h : s.Works) (line : String) :
    s.writeLine line = (.ok (), { s with text := s.text ++ (line ++ "\n") }) := by
  rw [writeLine, write, h.write]

theorem lines_writeLine {s : Sink} {line : String} (h : OnOneLine line) :
    ({ s with text := s.text ++ (line ++ "\n") } : Sink).lines = s.lines + 1 := by
  have hl : line.toList.count '\n' = 0 := List.count_eq_zero_of_not_mem h
  have hn : ("\n" : String).toList = ['\n'] := by decide
  simp only [lines, String.toList_append, List.count_append, hl, hn]
  rfl

theorem io_of_write {s : Sink} {text : String} {f : Failure} (h : (s.writeLine text).1 = .error f) :
    ∃ message, f = .io message := by
  unfold writeLine write at h
  split at h
  · exact ⟨_, (Except.error.inj h).symm⟩
  · cases h

theorem io_of_flush {s : Sink} {f : Failure} (h : s.flush = .error f) : ∃ message, f = .io message := by
  unfold flush at h
  split at h
  · exact ⟨_, (Except.error.inj h).symm⟩
  · cases h

end Sink

/-- Over lines the only failures are mistakes. -/
theorem Failure.Stems.mistake {f : Failure} (h : f.Stems reads) (hr : AllLines reads) :
    ∃ line m, f = .mistake line m ∧ m.Spelled := by
  cases f with
  | mistake line m => exact ⟨line, m, rfl, h⟩
  | heldTwice line => exact absurd h id
  | io message =>
    obtain ⟨text, he⟩ := hr _ h
    cases he

/-- A failure that is no mistake is one of reading or writing. -/
theorem Failure.Stems.io {f : Failure} (h : f.Stems reads) (hf : ¬ f.isRecoverable) :
    ∃ message, f = .io message := by
  cases f with
  | mistake line m => exact absurd rfl hf
  | heldTwice line => exact absurd h id
  | io message => exact ⟨message, rfl⟩

namespace Session

/-! ## What comes out of a run -/

theorem eq_error_of_proceed {r : Except Failure Unit} {f : Failure} (h : proceed r = some (.failed f)) :
    r = .error f := by
  cases r with
  | ok u => cases h
  | error g =>
    cases h
    rfl

theorem io_of_close {s : Session} {f : Failure} (h : s.close = .failed f) : ∃ message, f = .io message := by
  unfold close at h
  rcases hp : s.out.flush with g | u
  · rw [hp] at h
    cases h
    exact Sink.io_of_flush hp
  · rw [hp] at h
    cases h

theorem io_of_printValue {s : Session} {v : Binary64} {f : Failure} (h : (s.printValue v).1 = some (.failed f)) :
    ∃ message, f = .io message := by
  unfold printValue at h
  split at h
  · cases h
  · exact Sink.io_of_write (eq_error_of_proceed h)

theorem io_of_recover {s : Session} (h : s.desk.scanner.Kept reads) {g f : Failure}
    (hf : (s.recover g).1 = some (.failed f)) : ∃ message, f = .io message := by
  unfold recover at hf
  split at hf
  · rename_i g' err hw
    cases hf
    exact Sink.io_of_write (congrArg Prod.fst hw)
  · obtain ⟨message, he, -⟩ := Scanner.stems_skipPast h (eq_error_of_proceed hf)
    exact ⟨message, he⟩

theorem io_of_turn {s : Session} (h : s.desk.scanner.Kept reads) {f : Failure} (hf : s.turn.1 = some (.failed f)) :
    ∃ message, f = .io message := by
  have ho := Desk.outcome_nextValue h
  have hkept := (follows_nextValue h).kept
  unfold turn at hf
  split at hf
  · exact io_of_close (Option.some.inj hf)
  · exact io_of_printValue hf
  · rename_i g after hn
    rw [hn] at hkept
    have hstems : g.Stems reads := (ho.failure g (congrArg Prod.fst hn)).1
    split at hf
    · exact io_of_recover hkept hf
    · rename_i hr
      cases hf
      exact hstems.io hr

theorem io_of_run {s : Session} (h : s.desk.scanner.Kept reads) {f : Failure} (hf : s.run.1 = .failed f) :
    ∃ message, f = .io message := by
  fun_induction run s with
  | case1 s ending after hn =>
    obtain rfl : ending = .failed f := hf
    exact io_of_turn h (congrArg Prod.fst hn)
  | case2 s after hn ih =>
    have hk := (follows_turn h).kept
    rw [hn] at hk
    exact ih hk hf

/-! ## Runs without failures -/

def lines (s : Session) : Nat := s.out.lines + s.err.lines

/-- A session with nothing in its way. -/
structure Steady (reads : List Read) (s : Session) : Prop where
  kept : s.desk.scanner.Kept reads
  precision : s.precision ≤ maxPrecision
  out : s.out.Works
  err : s.err.Works

/-- What a turn that wrote a line and goes on has come to. -/
structure Wrote (reads : List Read) (s : Session) (a : Option Ending × Session) : Prop where
  steady : Steady reads a.2
  goes : a.1 = none
  lines : a.2.lines = s.lines + 1

theorem close_of_steady {s : Session} (h : Steady reads s) : s.close = .finished := by
  simp only [close, Sink.flush, h.out.flush]
  rfl

theorem wrote_printValue {s : Session} (h : Steady reads s) (v : Binary64) : Wrote reads s (s.printValue v) := by
  obtain ⟨text, ht⟩ := Binary64.generalText?_isSome h.precision v
  have hline : resultLine? s.precision v = some ("=" ++ text) := by
    rw [resultLine?, ht]
    rfl
  have hone : OnOneLine ("=" ++ text) := onOneLine_append.mpr ⟨by decide, Binary64.onOneLine_generalText? ht⟩
  unfold printValue
  rw [hline]
  dsimp only
  rw [Sink.writeLine_of_works h.out]
  refine ⟨⟨h.kept, h.precision, ⟨h.out.write, h.out.flush⟩, h.err⟩, rfl, ?_⟩
  show Sink.lines _ + s.err.lines = s.out.lines + s.err.lines + 1
  rw [Sink.lines_writeLine hone]
  omega

theorem wrote_recover (hr : AllLines reads) {s : Session} (h : Steady reads s)
    (line : Nat) {m : Mistake} (hm : m.Spelled) : Wrote reads s (s.recover (.mistake line m)) := by
  have hskip : proceed (s.desk.scanner.skipPast Symbol.equals.char).1 = none := by
    rcases hs : (s.desk.scanner.skipPast Symbol.equals.char).1 with g | u
    · obtain ⟨message, -, hmem⟩ := Scanner.stems_skipPast h.kept hs
      obtain ⟨text, he⟩ := hr _ hmem
      cases he
    · rfl
  unfold recover
  rw [Sink.writeLine_of_works h.err]
  refine ⟨⟨Scanner.kept_skipPast h.kept _, h.precision, h.out, ⟨h.err.write, h.err.flush⟩⟩, hskip, ?_⟩
  show s.out.lines + Sink.lines _ = s.out.lines + s.err.lines + 1
  rw [Sink.lines_writeLine (Failure.onOneLine_message hm), Nat.add_assoc]

/-- A turn finishes the run, or writes one line. -/
theorem turn_steady (hr : AllLines reads) {s : Session} (h : Steady reads s) :
    (s.turn.1 = some .finished ∧ s.turn.2.lines = s.lines) ∨ Wrote reads s s.turn := by
  have ho := Desk.outcome_nextValue h.kept
  have hnext : s.nextValue = (s.desk.nextValue.1, { s with desk := s.desk.nextValue.2 }) := rfl
  have hs : Steady reads { s with desk := s.desk.nextValue.2 } := ⟨ho.kept, h.precision, h.out, h.err⟩
  unfold turn
  rw [hnext]
  rcases hv : s.desk.nextValue.1 with f | _ | v
  · obtain ⟨line, m, rfl, hm⟩ := ((ho.failure f hv).1).mistake hr
    have hw := wrote_recover hr hs line hm
    exact .inr ⟨hw.steady, hw.goes, hw.lines⟩
  · exact .inl ⟨congrArg some (close_of_steady hs), rfl⟩
  · have hw := wrote_printValue hs v
    exact .inr ⟨hw.steady, hw.goes, hw.lines⟩

/-- The lines that a run writes are paid for by what it reads. -/
theorem run_steady (hr : AllLines reads) {s : Session} (h : Steady reads s) :
    s.run.1 = .finished ∧ s.run.2.lines ≤ s.lines + s.unread := by
  fun_induction run s with
  | case1 s ending after hn =>
    rcases turn_steady hr h with ⟨he, hl⟩ | hw
    · rw [hn] at he hl
      refine ⟨Option.some.inj he, ?_⟩
      dsimp only at hl ⊢
      omega
    · have hgoes := hw.goes
      rw [hn] at hgoes
      cases hgoes
  | case2 s after hn ih =>
    rcases turn_steady hr h with ⟨he, -⟩ | hw
    · rw [hn] at he
      cases he
    · have hlt := unread_turn_lt (s := s) (by rw [hn])
      rw [hn] at hlt hw
      obtain ⟨hend, hle⟩ := ih hw.steady
      have hl : after.lines = s.lines + 1 := hw.lines
      refine ⟨hend, ?_⟩
      dsimp only at hlt
      omega

/-! ## The characters of a source -/

theorem readsSize_eq (reads : List Read) (hr : AllLines reads) :
    Scanner.readsSize reads = (joined reads).length := by
  induction reads with
  | nil => rfl
  | cons read reads ih =>
    obtain ⟨text, rfl⟩ := hr read List.mem_cons_self
    have ih := ih fun r hm => hr r (List.mem_cons_of_mem _ hm)
    show text.length + _ = (text ++ joined reads).length
    rw [ih, List.length_append]

/-- Before the first call all characters of the decoded source are left to read. -/
theorem unread_fresh (chunks : List (List UInt8)) (precision : Nat) (out err : Sink) :
    (fresh (chunks.map .bytes) precision out err).unread = (Utf8.decode chunks.flatten).length := by
  have hr : AllLines (Source.reads (chunks.map .bytes)) := Scanner.unbroken_ofPieces chunks
  rw [← Source.joined_reads, ← readsSize_eq _ hr]
  show 0 + 0 + Scanner.readsSize (Source.reads (chunks.map .bytes)) = _
  omega

/-! ## Every run -/

/-- Over any bytes, in any state a session can come to: a statement with a value or a mistake
    lowers what is left to read, and what is skipped then does not raise it. A run with sinks
    that work, at a precision up to `maxPrecision`, finishes, and writes no more lines than there
    were characters left, which are those of the source at most. Only a failed read or write
    ends a run otherwise. -/
theorem run_finishes (chunks : List (List UInt8)) (precision : Nat) (out err : Sink) (calls : List Call) :
    let s := (fresh (chunks.map .bytes) precision out err).performAll calls
    (Desk.Progress s.nextValue.1 → s.nextValue.2.unread < s.unread) ∧
      (s.nextValue.2.desk.scanner.skipPast Symbol.equals.char).2.unread ≤ s.nextValue.2.unread ∧
      (s.precision ≤ maxPrecision → s.out.Works → s.err.Works →
        s.run.1 = .finished ∧ s.run.2.lines ≤ s.lines + s.unread) ∧
      s.unread ≤ (Utf8.decode chunks.flatten).length ∧
      ∀ f, s.run.1 = .failed f → ∃ message, f = .io message := by
  intro s
  have hs : Follows (Source.reads (chunks.map .bytes)) (fresh (chunks.map .bytes) precision out err) s :=
    follows_performAll (kept_fresh _ precision out err) calls
  refine ⟨Desk.unread_nextValue_lt, Scanner.unread_skipPast_le _ _, ?_, ?_, ?_⟩
  · intro hp ho he
    exact run_steady (Scanner.unbroken_ofPieces chunks) ⟨hs.kept, hp, ho, he⟩
  · have hu := hs.unread
    rwa [unread_fresh] at hu
  · intro f hf
    exact io_of_run hs.kept hf

/-- A byte that is no text is a mistake, and so is a division by zero; the run goes on. -/
theorem run_finishes_mistaken :
    let source := [[0x37, 0xFF, 0x3D], "1/0 = 2 =".toUTF8.toList]
    let s := fresh (source.map .bytes) 6 {} {}
    Desk.Progress s.nextValue.1 ∧ s.nextValue.2.unread < s.unread ∧ s.run.1 = .finished ∧ s.run.2.lines ≤ 12 := by
  intro source s
  have hp : Desk.Progress s.nextValue.1 := by decide +kernel
  obtain ⟨hlt, -, hrun, hle, -⟩ := run_finishes source 6 {} {} []
  obtain ⟨hend, hlines⟩ := hrun (by decide) ⟨rfl, rfl⟩ ⟨rfl, rfl⟩
  refine ⟨hp, hlt hp, hend, ?_⟩
  calc s.run.2.lines ≤ s.lines + s.unread := hlines
    _ ≤ 0 + (Utf8.decode source.flatten).length := Nat.add_le_add (by decide) hle
    _ = 12 := by decide +kernel

end Session

end Reckoner
