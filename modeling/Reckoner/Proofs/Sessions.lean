/-
  Reckoner.Proofs.Sessions — sessions under any calls.

  A session is used by calls: for the next value, for one turn of a run or a whole run, for the
  banner, or to give it other sinks and another precision, so that a sink may begin to fail
  between any two turns. What one call preserves, all do, in any order (`follows_performAll`).
-/

import Reckoner.Proofs.Outcome
import Reckoner.Session

namespace Reckoner

variable {reads : List Read}

/-! ## Growing variables -/

namespace Bindings

/-- Names that can be given to a variable were bound, one after another, each for the first time. -/
inductive Grows (b : Bindings) : Bindings → Prop
  | refl : Grows b b
  | bind {c : Bindings} {name : String} (v : Binary64) :
    Grows b c → IsVariable name → c.isBound name = false → Grows b ⟨c.toList ++ [⟨name, v⟩]⟩

theorem Grows.trans {b c d : Bindings} (h : Grows b c) (h' : Grows c d) : Grows b d := by
  induction h' with
  | refl => exact h
  | bind v _ hn hb ih => exact .bind v ih hn hb

theorem Extends.grows {b c : Bindings} {v : Binary64} (h : b.Extends v c) : Grows b c := by
  rcases h with rfl | ⟨name, hn, hb, rfl⟩
  · exact .refl
  · exact .bind v .refl hn hb

end Bindings

/-! ## Calls -/

namespace Session

/-- What can be asked of a session. -/
inductive Call where
  | nextValue
  | turn
  | run
  | banner
  | equip (precision : Nat) (out err : Sink)

def perform (s : Session) : Call → Session
  | .nextValue => s.nextValue.2
  | .turn => s.turn.2
  | .run => s.run.2
  | .banner => s.writeBanner.2
  | .equip precision out err => { s with precision, out, err }

def performAll (s : Session) (calls : List Call) : Session := calls.foldl perform s

/-- A session that came from `s`, over the rest of `reads`. -/
structure Follows (reads : List Read) (s after : Session) : Prop where
  kept : after.desk.scanner.Kept reads
  unread : after.unread ≤ s.unread
  grows : s.desk.bindings.Grows after.desk.bindings

theorem Follows.trans {s t u : Session} (h : Follows reads s t) (h' : Follows reads t u) : Follows reads s u :=
  ⟨h'.kept, Nat.le_trans h'.unread h.unread, h.grows.trans h'.grows⟩

theorem follows_of_desk {s after : Session} (h : s.desk.scanner.Kept reads) (hd : after.desk = s.desk) :
    Follows reads s after := by
  refine ⟨hd ▸ h, ?_, ?_⟩
  · rw [unread, hd]
    exact Nat.le_refl _
  · rw [hd]
    exact .refl

theorem follows_nextValue {s : Session} (h : s.desk.scanner.Kept reads) : Follows reads s s.nextValue.2 := by
  have ho := Desk.outcome_nextValue h
  refine ⟨ho.kept, Desk.unread_nextValue_le s.desk, ?_⟩
  show s.desk.bindings.Grows s.desk.nextValue.2.bindings
  rcases hr : s.desk.nextValue.1 with f | _ | v
  · rw [(ho.failure f hr).2]
    exact .refl
  · rw [ho.none hr]
    exact .refl
  · exact (ho.value v hr).grows

theorem desk_printValue (v : Binary64) (s : Session) : (s.printValue v).2.desk = s.desk := by
  unfold printValue
  split <;> rfl

theorem follows_recover {s : Session} (h : s.desk.scanner.Kept reads) (f : Failure) :
    Follows reads s (s.recover f).2 := by
  unfold recover
  split
  · exact follows_of_desk h rfl
  · exact ⟨Scanner.kept_skipPast h _, Scanner.unread_skipPast_le _ _, .refl⟩

theorem follows_turn {s : Session} (h : s.desk.scanner.Kept reads) : Follows reads s s.turn.2 := by
  have hf := follows_nextValue h
  unfold turn
  split
  · rename_i after hn
    rwa [hn] at hf
  · rename_i v after hn
    rw [hn] at hf
    exact hf.trans (follows_of_desk hf.kept (desk_printValue v after))
  · rename_i f after hn
    rw [hn] at hf
    split
    · exact hf.trans (follows_recover hf.kept f)
    · exact hf

theorem follows_run {s : Session} (h : s.desk.scanner.Kept reads) : Follows reads s s.run.2 := by
  fun_induction run s with
  | case1 s ending after hn =>
    have hf := follows_turn h
    rwa [hn] at hf
  | case2 s after hn ih =>
    have hf := follows_turn h
    rw [hn] at hf
    exact hf.trans (ih hf.kept)

theorem follows_perform {s : Session} (h : s.desk.scanner.Kept reads) (call : Call) :
    Follows reads s (s.perform call) := by
  cases call with
  | nextValue => exact follows_nextValue h
  | turn => exact follows_turn h
  | run => exact follows_run h
  | banner => exact follows_of_desk h rfl
  | equip precision out err => exact follows_of_desk h rfl

theorem follows_performAll {s : Session} (h : s.desk.scanner.Kept reads) (calls : List Call) :
    Follows reads s (s.performAll calls) := by
  induction calls generalizing s with
  | nil => exact follows_of_desk h rfl
  | cons call calls ih =>
    have hf := follows_perform h call
    exact hf.trans (ih hf.kept)

/-- A session over `pieces`, before its first call. -/
def fresh (pieces : List Piece) (precision : Nat) (out err : Sink) : Session :=
  { desk := .ofPieces pieces, precision, out, err }

theorem kept_fresh (pieces : List Piece) (precision : Nat) (out err : Sink) :
    (fresh pieces precision out err).desk.scanner.Kept (Source.reads pieces) :=
  Scanner.kept_of_held_none (List.suffix_refl _) rfl

end Session

end Reckoner
