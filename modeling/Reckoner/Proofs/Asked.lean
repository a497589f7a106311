/-
  Reckoner.Proofs.Asked — the statements of a run, one after another.

  A run asks its desk for a value again and again. The desks it asks, each as it was then, are the
  trace of the run: what a statement comes to is told by the desk alone.

  - `asked_of_end`, `asked_of_goes`: the trace grows by one desk with every turn.
  - `err_run`: a run reports the mistakes of its trace, one by one, unless the error output fails.
-/

import Reckoner.Session

namespace Reckoner

namespace Desk

def mistake? (d : Desk) : Option (Nat × Mistake) :=
  match d.nextValue.1 with
  | .error (.mistake line m) => some (line, m)
  | _ => none

def value? (d : Desk) : Option Binary64 :=
  match d.nextValue.1 with
  | .ok v => v
  | .error _ => none

variable {d after : Desk}

theorem mistake?_of_mistake {line : Nat} {m : Mistake} (h : d.nextValue = (.error (.mistake line m), after)) :
    d.mistake? = some (line, m) := by
  rw [mistake?, h]

theorem mistake?_of_ok {v : Option Binary64} (h : d.nextValue = (.ok v, after)) : d.mistake? = none := by
  rw [mistake?, h]

/-- A failure that ends the session is no mistake. -/
theorem mistake?_of_lost {f : Failure} (h : d.nextValue = (.error f, after)) (hf : f.isRecoverable = false) :
    d.mistake? = none := by
  rw [mistake?, h]
  cases f with
  | mistake line m => cases hf
  | _ => rfl

theorem error_of_mistake? {line : Nat} {m : Mistake} (h : d.mistake? = some (line, m)) :
    d.nextValue.1 = .error (.mistake line m) := by
  unfold mistake? at h
  split at h
  · rename_i hn
    obtain ⟨rfl, rfl⟩ := Prod.mk.inj (Option.some.inj h)
    exact hn
  · cases h

end Desk

namespace Session

/-- The desks that a run asks for a value. -/
def asked (s : Session) : List Desk :=
  match _h : s.turn with
  | (some _, _) => [s.desk]
  | (none, after) => s.desk :: asked after
  termination_by s.unread
  decreasing_by
    have := unread_turn_lt (s := s) (by rw [_h])
    rwa [_h] at this

/-- The lines that report the mistakes that were made at the desks. -/
def reported (desks : List Desk) : String :=
  String.join ((desks.filterMap Desk.mistake?).map fun (line, m) => (Failure.mistake line m).message ++ "\n")

theorem asked_of_end {s : Session} {ending : Ending} (h : s.turn.1 = some ending) : s.asked = [s.desk] := by
  rw [asked]
  split
  · rfl
  · rename_i hn
    rw [hn] at h
    cases h

theorem asked_of_goes {s : Session} (h : s.turn.1 = none) : s.asked = s.desk :: s.turn.2.asked := by
  rw [asked]
  split
  · rename_i hn
    rw [hn] at h
    cases h
  · rename_i hn
    rw [hn]

theorem reported_cons (d : Desk) (ds : List Desk) : reported (d :: ds) = reported [d] ++ reported ds := by
  have h : (d :: ds).filterMap Desk.mistake? = [d].filterMap Desk.mistake? ++ ds.filterMap Desk.mistake? :=
    List.filterMap_append (l := [d])
  rw [reported, h, List.map_append, String.join_append]
  rfl

theorem reported_of_none {d : Desk} (h : d.mistake? = none) : reported [d] = "" := by
  rw [reported, List.filterMap_cons, h]
  rfl

theorem reported_of_some {d : Desk} {line : Nat} {m : Mistake} (h : d.mistake? = some (line, m)) :
    reported [d] = (Failure.mistake line m).message ++ "\n" := by
  rw [reported, List.filterMap_cons, h]
  exact String.join_cons.trans String.append_empty

end Session

namespace Sink

/-- The text is written behind what was written before, unless writing fails. -/
def extended (text : String) (s : Sink) : Sink :=
  if s.writeFault = none then { s with text := s.text ++ text } else s

@[simp] theorem writeFault_extended (text : String) (s : Sink) : (s.extended text).writeFault = s.writeFault := by
  unfold extended
  split <;> rfl

@[simp] theorem flushFault_extended (text : String) (s : Sink) : (s.extended text).flushFault = s.flushFault := by
  unfold extended
  split <;> rfl

theorem extended_empty (s : Sink) : s.extended "" = s := by
  unfold extended
  split
  · rw [String.append_empty]
  · rfl

theorem extended_append (a b : String) (s : Sink) : s.extended (a ++ b) = (s.extended a).extended b := by
  by_cases h : s.writeFault = none
  · simp [extended, h, String.append_assoc]
  · simp [extended, h]

theorem writeLine_extended (line : String) (s : Sink) : (s.writeLine line).2 = s.extended (line ++ "\n") := by
  unfold writeLine write extended
  rcases h : s.writeFault with _ | message
  · rfl
  · rfl

end Sink

namespace Session

theorem err_printValue (v : Binary64) (s : Session) : (s.printValue v).2.err = s.err := by
  unfold printValue
  split <;> rfl

theorem err_recover (f : Failure) (s : Session) : (s.recover f).2.err = s.err.extended (f.message ++ "\n") := by
  rw [← Sink.writeLine_extended]
  unfold recover
  split
  · rename_i hw
    rw [hw]
  · rename_i hw
    rw [hw]

/-- A turn reports the mistake of its desk, if there is one. -/
theorem err_turn (s : Session) : s.turn.2.err = s.err.extended (reported [s.desk]) := by
  unfold turn nextValue
  rcases hn : s.desk.nextValue with ⟨f | _ | v, after⟩
  · cases f with
    | mistake line m =>
      rw [reported_of_some (Desk.mistake?_of_mistake hn)]
      exact err_recover _ _
    | heldTwice line =>
      rw [reported_of_none (Desk.mistake?_of_lost hn rfl), Sink.extended_empty]
      rfl
    | io message =>
      rw [reported_of_none (Desk.mistake?_of_lost hn rfl), Sink.extended_empty]
      rfl
  · rw [reported_of_none (Desk.mistake?_of_ok hn), Sink.extended_empty]
  · rw [reported_of_none (Desk.mistake?_of_ok hn), Sink.extended_empty]
    exact err_printValue _ _

theorem err_run (s : Session) : s.run.2.err = s.err.extended (reported s.asked) := by
  fun_induction run s with
  | case1 s ending after hn =>
    have h := err_turn s
    rw [hn] at h
    rw [asked_of_end (congrArg Prod.fst hn)]
    exact h
  | case2 s after hn ih =>
    have h := err_turn s
    rw [hn] at h
    rw [ih, asked_of_goes (congrArg Prod.fst hn), hn, reported_cons, Sink.extended_append, ← h]

end Session

end Reckoner
