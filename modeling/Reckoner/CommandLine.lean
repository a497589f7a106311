/-
  Reckoner.CommandLine — the command and its arguments.

  Arguments that are not understood are reported with the exit code 2, and nothing is run. The texts
  of help and version are written without a session.
-/

import Reckoner.Command
import Reckoner.Options

namespace Reckoner.CommandLine

/-- Runs the command in a place where `openPath` opens files and a panic has no report of its own. -/
def perform (openPath : String → Opening) (stdin : List Piece) (args : List String) : Report :=
  match Options.parse args with
  | .error e => ⟨"", e.message, 2⟩
  | .ok .help => ⟨Options.help, "", 0⟩
  | .ok .version => ⟨Options.version, "", 0⟩
  | .ok (.run o) => Command.perform { openPath, stdin } o

end Reckoner.CommandLine
