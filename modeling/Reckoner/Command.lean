/-
  Reckoner.Command — a command that was understood, up to its exit code.

  It runs a session over the file that it names, or over the standard input. Mistakes in statements
  are no failure of the command: its exit code is 0 if the session ends by itself, 1 if reading or
  writing failed, and 2 if a result could not be printed. A result that cannot be printed is a panic,
  which is reported on the error output before the command catches it; what that report says is a
  matter of the place where the command runs. What was written before a failure stays.
-/

import Reckoner.Folder
import Reckoner.Session

namespace Reckoner

/-- What a command is told. -/
structure Options where
  file : Option String := none
  quiet : Bool := false
  precision : Nat := defaultPrecision
  deriving DecidableEq

/-- Where a command runs. -/
structure Place where
  openPath : String → Opening
  stdin : List Piece
  /-- The lines that a panic writes to the error output by itself. -/
  panicReport : List String := []

structure Report where
  stdout : String
  stderr : String
  exit : Nat
  deriving DecidableEq

namespace Session

/-- The last lines of the error output, and the exit code. -/
def closing (panicReport : List String) : Ending → List String × Nat
  | .finished => ([], 0)
  | .failed f => ([f.message], 1)
  | .unprintable => (panicReport ++ ["exception"], 2)

/-- What a command that ended so has written, and its exit code. -/
def report (panicReport : List String) (ending : Ending) (s : Session) : Report :=
  let (lastLines, exit) := closing panicReport ending
  { stdout := s.out.text, stderr := s.err.text ++ String.join (lastLines.map (· ++ "\n")), exit }

/-- The session that a command starts, before its first statement. -/
def opened (precision : Nat) (pieces : List Piece) : Session := { desk := .ofPieces pieces, precision }

/-- Writes the banner, unless it is not wanted. -/
def greet (quiet : Bool) (s : Session) : Except Failure Unit × Session :=
  if quiet then (.ok (), s) else s.writeBanner

end Session

namespace Command

/-- The session of a command, from its banner to its end. -/
def drive (panicReport : List String) (o : Options) (pieces : List Piece) : Report :=
  match (Session.opened o.precision pieces).greet o.quiet with
  | (.error f, s) => s.report panicReport (.failed f)
  | (.ok (), s) =>
    let (ending, s) := s.run
    s.report panicReport ending

def unreadable (path reason : String) : Failure :=
  .io ("Failed to read the input file '" ++ path ++ "': " ++ reason)

def refuse (path reason : String) : Report := ⟨"", (unreadable path reason).message ++ "\n", 1⟩

def perform (place : Place) (o : Options) : Report :=
  match o.file with
  | none => drive place.panicReport o place.stdin
  | some path =>
    match place.openPath path with
    | .refused reason => refuse path reason
    | .source pieces => drive place.panicReport o pieces

end Command

end Reckoner
