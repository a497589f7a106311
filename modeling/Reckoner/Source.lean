/-
  Reckoner.Source — where statements come from.

  A source is bytes in pieces, and between them reads that fail. It is read line by line: a
  line runs across pieces up to and including its newline, or to the end of the source. A
  failed read loses the part of the line that was read before it.

  - `reads_append_bytes`: how the bytes are cut into pieces makes no difference.
-/

import Reckoner.Text.Utf8

namespace Reckoner

inductive Piece where
  | bytes (b : List UInt8)
  | failure (message : String)
  deriving DecidableEq

/-- What a request for the next line is answered with. -/
inductive Read where
  | line (text : List Char)
  | failure (message : String)
  deriving DecidableEq

namespace Source

/-- The complete lines of some bytes, and the bytes behind the last newline. -/
def cutLines : List UInt8 → List (List UInt8) × List UInt8
  | [] => ([], [])
  | b :: bytes =>
    let (lines, rest) := cutLines bytes
    if b = Utf8.newline then ([b] :: lines, rest)
    else
      match lines with
      | [] => ([], b :: rest)
      | line :: lines => ((b :: line) :: lines, rest)

def lineRead (line : List UInt8) : Read := .line (Utf8.decode line)

/-- The reads of a source of which part of a line has been read. -/
def readsFrom (begun : List UInt8) : List Piece → List Read
  | [] => if begun = [] then [] else [lineRead begun]
  | .bytes b :: pieces =>
    let (lines, rest) := cutLines (begun ++ b)
    lines.map lineRead ++ readsFrom rest pieces
  | .failure message :: pieces => .failure message :: readsFrom [] pieces

/-- A source as the lines and failures it will be read as, in order. -/
def reads (pieces : List Piece) : List Read := readsFrom [] pieces

def ofString (text : String) : List Piece := [.bytes text.toUTF8.toList]

/-! ## Pieces -/

theorem cutLines_append (a b : List UInt8) :
    cutLines (a ++ b) =
      ((cutLines a).1 ++ (cutLines ((cutLines a).2 ++ b)).1, (cutLines ((cutLines a).2 ++ b)).2) := by
  induction a with
  | nil => simp [cutLines]
  | cons x a ih =>
    simp only [List.cons_append, cutLines, ih]
    split
    · simp
    · rename_i hx
      cases hl : (cutLines a).1 with
      | nil => simp [cutLines, hx]
      | cons l ls => simp

theorem readsFrom_append_bytes (begun a b : List UInt8) (pieces : List Piece) :
    readsFrom begun (.bytes (a ++ b) :: pieces) = readsFrom begun (.bytes a :: .bytes b :: pieces) := by
  have h := cutLines_append (begun ++ a) b
  simp only [readsFrom, ← List.append_assoc, h, List.map_append]

theorem reads_append_bytes (a b : List UInt8) (pieces : List Piece) :
    reads (.bytes (a ++ b) :: pieces) = reads (.bytes a :: .bytes b :: pieces) :=
  readsFrom_append_bytes [] a b pieces

end Source

end Reckoner
