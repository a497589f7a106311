/-
  Reckoner.Session — statements in, results and messages out.

  A session calculates statements until `exit` or the end of the input. A value is written to
  the output as `=` and the value in general notation, each on a line of its own. A mistake is
  written to the error output, and what follows it is skipped up to and including the next
  `=`. Any other failure ends the run at once; what was written before stays written.

  - `unread_turn_lt`: a turn after which the run goes on leaves less to read.
-/

import Reckoner.Decimal.General
import Reckoner.Desk

namespace Reckoner

/-- Somewhere to write text; writing or flushing may fail. -/
structure Sink where
  text : String := ""
  writeFault : Option String := none
  flushFault : Option String := none
  deriving DecidableEq

namespace Sink

def write (t : String) (s : Sink) : Except Failure Unit × Sink :=
  match s.writeFault with
  | some message => (.error (.io message), s)
  | none => (.ok (), { s with text := s.text ++ t })

def writeLine (t : String) (s : Sink) : Except Failure Unit × Sink := s.write (t ++ "\n")

def flush (s : Sink) : Except Failure Unit :=
  match s.flushFault with
  | some message => .error (.io message)
  | none => .ok ()

end Sink

structure Session where
  desk : Desk
  precision : Nat := defaultPrecision
  out : Sink := {}
  err : Sink := {}
  deriving DecidableEq

/-- How a run ends. -/
inductive Ending where
  | finished
  | failed (f : Failure)
  /-- A result asks for more digits than can be written. -/
  | unprintable
  deriving DecidableEq

namespace Session

def banner : String :=
  "Welcome to our simple calculator.\n" ++
  "Please enter expression using floating-point numbers.\n" ++
  "input (exit) to quit and input (=) to print result.\n" ++
  "for square root function type 'sqrt(number)'.\n" ++
  "for power function type 'pow(number1,number2)'."

def ofPieces (pieces : List Piece) : Session := { desk := .ofPieces pieces }

def unread (s : Session) : Nat := s.desk.unread

def writeBanner (s : Session) : Except Failure Unit × Session :=
  let (result, out) := s.out.writeLine banner
  (result, { s with out })

def nextValue (s : Session) : Except Failure (Option Binary64) × Session :=
  let (result, desk) := s.desk.nextValue
  (result, { s with desk })

/-- What a write comes to: the run goes on, or has failed. -/
def proceed : Except Failure Unit → Option Ending
  | .ok () => none
  | .error f => some (.failed f)

/-- The line that prints a value. -/
def resultLine? (precision : Nat) (v : Binary64) : Option String :=
  (v.generalText? precision).map ("=" ++ ·)

def printValue (v : Binary64) (s : Session) : Option Ending × Session :=
  match resultLine? s.precision v with
  | none => (some .unprintable, s)
  | some line =>
    let (result, out) := s.out.writeLine line
    (proceed result, { s with out })

/-- Reports a mistake and goes behind the next `=`. -/
def recover (f : Failure) (s : Session) : Option Ending × Session :=
  match s.err.writeLine f.message with
  | (.error g, err) => (some (.failed g), { s with err })
  | (.ok (), err) =>
    let (result, scanner) := s.desk.scanner.skipPast Symbol.equals.char
    (proceed result, { s with err, desk.scanner := scanner })

def close (s : Session) : Ending := (proceed s.out.flush).getD .finished

/-- One statement of a run: how the run ended at it, if it did. -/
def turn (s : Session) : Option Ending × Session :=
  match s.nextValue with
  | (.ok none, s) => (some s.close, s)
  | (.ok (some v), s) => s.printValue v
  | (.error f, s) => if f.isRecoverable then s.recover f else (some (.failed f), s)

theorem unread_printValue (v : Binary64) (s : Session) : (s.printValue v).2.unread = s.unread := by
  unfold printValue
  split <;> rfl

theorem unread_recover_le (f : Failure) (s : Session) : (s.recover f).2.unread ≤ s.unread := by
  unfold recover
  split
  · exact Nat.le_refl _
  · exact Scanner.unread_skipPast_le _ _

theorem unread_turn_lt {s : Session} (h : s.turn.1 = none) : s.turn.2.unread < s.unread := by
  unfold turn at h ⊢
  cases hn : s.nextValue with
  | mk result after =>
    have hlt : Desk.Progress result → after.unread < s.unread := by
      have hd := Desk.unread_nextValue_lt (d := s.desk)
      unfold nextValue at hn
      cases hn
      exact hd
    rw [hn] at h
    match result with
    | .ok none => cases h
    | .ok (some v) =>
      dsimp only
      rw [unread_printValue]
      exact hlt nofun
    | .error f =>
      dsimp only at h ⊢
      split
      · rename_i hr
        exact Nat.lt_of_le_of_lt (unread_recover_le f after) (hlt hr)
      · rename_i hr
        rw [if_neg hr] at h
        cases h

/-- The session with further lines to read. -/
def feed (reads : List Read) (s : Session) : Session :=
  { s with desk.scanner.reads := s.desk.scanner.reads ++ reads }

/-- The session met the end of the lines it was given. -/
def isStarved (s : Session) : Bool := s.desk.scanner.ended

/-- Takes turns until the run ends. -/
def run (s : Session) : Ending × Session :=
  match _h : s.turn with
  | (some ending, s) => (ending, s)
  | (none, after) => run after
  termination_by s.unread
  decreasing_by
    have := unread_turn_lt (s := s) (by rw [_h])
    rwa [_h] at this

theorem run_of_end {s : Session} {ending : Ending} (h : s.turn.1 = some ending) : s.run = (ending, s.turn.2) := by
  rw [run]
  split
  · rename_i hn
    rw [hn] at h ⊢
    cases h
    rfl
  · rename_i hn
    rw [hn] at h
    cases h

theorem run_of_goes {s : Session} (h : s.turn.1 = none) : s.run = s.turn.2.run := by
  rw [run]
  split
  · rename_i hn
    rw [hn] at h
    cases h
  · rename_i hn
    rw [hn]

end Session

end Reckoner
