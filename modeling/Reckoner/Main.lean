/-
  Reckoner.Main — the command at work.

  A command that reads the standard input answers each statement as soon as it is complete: a
  turn that met the end of the lines read so far is taken again, from the session before it,
  with one line more. Here a panic has no report of its own.
-/

import Reckoner.CommandLine

namespace Reckoner

def emit (r : Report) : IO UInt32 := do
  (← IO.getStdout).putStr r.stdout
  (← IO.getStderr).putStr r.stderr
  return r.exit.toUInt32

/-- The bytes up to the next newline or the end of the input. -/
def readLine (input : IO.FS.Stream) : IO (List UInt8) := do
  let mut line : Array UInt8 := #[]
  repeat
    let byte ← input.read 1
    if byte.isEmpty then break
    line := line ++ byte.data
    if byte.data.contains Utf8.newline then break
  return line.toList

/-- Runs a session on the standard input, printing what each turn wrote. -/
def converse (greeted : Session) : IO UInt32 := do
  let input ← IO.getStdin
  let output ← IO.getStdout
  let mut exit ← emit (greeted.report [] .finished)
  let mut session := { greeted with out := {}, err := {} }
  let mut inputOver := false
  repeat
    output.flush
    let (ending, after) := session.turn
    if after.isStarved && !inputOver then
      let line ← readLine input
      if line.isEmpty then inputOver := true
      else session := session.feed (Source.reads [.bytes line])
    else
      exit ← emit (after.report [] (ending.getD .finished))
      if ending.isSome then break
      session := { after with out := {}, err := {} }
  return exit

def openFile (path : String) : IO Opening := do
  try
    return .source [.bytes (← IO.FS.readBinFile path).toList]
  catch
    | .noFileOrDirectory .. => return Folder.missing
    | .permissionDenied .. => return .refused "Permission denied (os error 13)"
    | .inappropriateType _ 21 _ => return Folder.aFolder
    | .inappropriateType .. => return Folder.notAFolder
    | .invalidArgument _ _ "name too long" => return Folder.tooLong
    | e => return .refused e.toString

end Reckoner

open Reckoner in
def main (args : List String) : IO UInt32 := do
  match Options.parse args with
  | .ok (.run o) =>
    match o.file with
    | none =>
      match (Session.opened o.precision []).greet o.quiet with
      | (.error f, s) => emit (s.report [] (.failed f))
      | (.ok (), s) => converse s
    | some path =>
      let opening ← openFile path
      emit (Command.perform { openPath := fun _ => opening, stdin := [] } o)
  | _ => emit (CommandLine.perform (fun _ => Folder.missing) [] args)
