/-
  Reckoner.Proofs.Agreement — evaluating a source and running a session over it.

  Evaluation stops at the first mistake and returns values; a run reports mistakes, goes on behind
  them and writes text. Up to the first mistake they take the same statements from the same desk, so
  that a run writes the lines of the values first, and its first error line is the mistake that
  evaluation returns.

  - `renders_of_value`: one statement that has a value.
  - `renders_run`: a session with nothing in its way, beside the values of its desk.
  - `run_agrees`: every text and every precision that can be printed.
-/

import Reckoner.Proofs.Asked
import Reckoner.Proofs.ReadBack

namespace Reckoner

variable {reads : List Read}

namespace Sink

/-- A sink that works takes every text. -/
theorem text_extended {s : Sink} (h : s.Works) (text : String) : (s.extended text).text = s.text ++ text := by
  rw [extended, if_pos h.write]

end Sink

namespace Session

variable {s : Session} {after : Desk}

/-- A run of `s` beside the values of its desk: it has written them and nothing else, or the leading
    ones and the mistake behind them. -/
def Renders (s : Session) : Except Failure (List Binary64) → Prop
  | .ok vs => s.run.1 = .finished ∧ s.run.2.out.text = s.out.text ++ printed s.precision vs ∧ s.run.2.err = s.err
  | .error f =>
    f.isRecoverable = true ∧
      (∃ later, s.run.2.out.text = s.out.text ++ printed s.precision s.desk.leading.1 ++ later) ∧
        ∃ later, s.run.2.err.text = s.err.text ++ (f.message ++ "\n") ++ later

/-- A statement leaves nothing in the way of a session. -/
theorem steady_nextValue (h : Steady reads s) {r : Except Failure (Option Binary64)}
    (hn : s.desk.nextValue = (r, after)) : Steady reads { s with desk := after } := by
  have ho := Desk.outcome_nextValue h.kept
  rw [hn] at ho
  exact ⟨ho.kept, h.precision, h.out, h.err⟩

/-- Without a further statement a run writes nothing. -/
theorem renders_of_end (h : Steady reads s) (hn : s.desk.nextValue = (.ok none, after)) : Renders s (.ok []) := by
  have hturn := turn_of_end hn
  rw [close_of_steady (steady_nextValue h hn)] at hturn
  unfold Renders
  rw [run_of_end (congrArg Prod.fst hturn), hturn]
  exact ⟨rfl, String.append_empty.symm, rfl⟩

/-- The first mistake is the first line of the error output. -/
theorem renders_of_mistake (hr : AllLines reads) (h : Steady reads s) {f : Failure}
    (hn : s.desk.nextValue = (.error f, after)) : Renders s (.error f) := by
  have ho := Desk.outcome_nextValue h.kept
  rw [hn] at ho
  obtain ⟨line, m, rfl, hm⟩ := (ho.failure f rfl).1.mistake hr
  have hgoes : s.turn.1 = none := by
    rw [turn_of_mistake hn]
    exact (wrote_recover hr (steady_nextValue h hn) line hm).goes
  refine ⟨rfl, ⟨printed s.precision s.shown, ?_⟩, reported s.turn.2.asked, ?_⟩
  · rw [out_run, Desk.leading_of_error hn]
    show _ = s.out.text ++ "" ++ _
    rw [String.append_empty]
  · rw [err_run, Sink.text_extended h.err, asked_of_goes hgoes, reported_cons,
      reported_of_some (Desk.mistake?_of_mistake hn), ← String.append_assoc]

/-- A value is the first line of the output. -/
theorem renders_of_value (h : Steady reads s) {v : Binary64} (hn : s.desk.nextValue = (.ok (some v), after))
    (ih : Steady reads s.turn.2 → s.turn.2.desk = after → Renders s.turn.2 after.values) :
    Renders s (after.values.map (v :: ·)) := by
  have hs := steady_nextValue h hn
  have hw := wrote_printValue hs v
  obtain ⟨hout, hp, hdesk, herr⟩ := printValue_steady hs v
  rw [← turn_of_value hn] at hw hout hp hdesk herr
  have hrest := ih hw.steady hdesk
  have hfront (vs : List Binary64) : s.turn.2.out.text ++ printed s.turn.2.precision vs =
      s.out.text ++ printed s.precision (v :: vs) := by
    rw [hout, hp, String.append_assoc, ← printed_append]
    rfl
  generalize after.values = r at hrest
  rcases r with f | vs
  · obtain ⟨hf, ⟨later, hlines⟩, later', hreport⟩ := hrest
    refine ⟨hf, ⟨later, ?_⟩, later', ?_⟩
    · rw [run_of_goes hw.goes, hlines, hfront, hdesk, Desk.leading_of_value hn]
    · rw [run_of_goes hw.goes, hreport, herr]
  · obtain ⟨hfinished, hlines, hreport⟩ := hrest
    refine ⟨?_, ?_, ?_⟩
    · rw [run_of_goes hw.goes, hfinished]
    · rw [run_of_goes hw.goes, hlines, hfront]
    · rw [run_of_goes hw.goes, hreport, herr]

/-- A session with nothing in its way, beside the values of its desk. -/
theorem renders_run (hr : AllLines reads) (h : Steady reads s) : Renders s s.desk.values := by
  generalize hd : s.desk = d
  fun_induction Desk.values d generalizing s with
  | case1 d f after hn => exact renders_of_mistake hr h (hd ▸ hn)
  | case2 d after hn => exact renders_of_end h (hd ▸ hn)
  | case3 d v after hn ih => exact renders_of_value h (hd ▸ hn) fun hs hdesk => ih hs hdesk

/-- A run over a text of which all statements have values writes a line for each and no error line.
    Of any other text evaluation returns the first mistake, never a failure that ends a session; a
    run writes that mistake first, and before all other output the lines of the values that were
    calculated before it. -/
theorem run_agrees {precision : Nat} (hp : precision ≤ maxPrecision) (text : String) (out err : Sink)
    (hout : out.Works) (herr : err.Works) :
    let s : Session := { desk := .ofPieces (Source.ofString text), precision, out, err }
    match evaluate text with
    | .ok vs =>
      s.run.1 = .finished ∧ s.run.2.err.text = err.text ∧
        ∃ lines, vs.mapM (resultLine? precision) = some lines ∧
          s.run.2.out.text = out.text ++ String.join (lines.map (· ++ "\n"))
    | .error f =>
      f.isRecoverable = true ∧ (∃ later, s.run.2.err.text = err.text ++ (f.message ++ "\n") ++ later) ∧
        ∃ lines, s.desk.leading.1.mapM (resultLine? precision) = some lines ∧
          ∃ later, s.run.2.out.text = out.text ++ String.join (lines.map (· ++ "\n")) ++ later := by
  intro s
  have hs : Steady (Source.reads (Source.ofString text)) s :=
    ⟨Scanner.kept_of_held_none (List.suffix_refl _) rfl, hp, hout, herr⟩
  have hagrees : Renders s (evaluate text) := renders_run (Scanner.unbroken_ofString text) hs
  generalize evaluate text = r at hagrees
  rcases r with f | vs
  · obtain ⟨hf, hlines, hreport⟩ := hagrees
    obtain ⟨lines, hmap, hjoin⟩ := mapM_resultLine? hp s.desk.leading.1
    exact ⟨hf, hreport, lines, hmap, hjoin ▸ hlines⟩
  · obtain ⟨hfinished, hlines, hreport⟩ := hagrees
    obtain ⟨lines, hmap, hjoin⟩ := mapM_resultLine? hp vs
    exact ⟨hfinished, congrArg Sink.text hreport, lines, hmap, hjoin ▸ hlines⟩

/-- Behind a division by zero a run goes on, and evaluation does not. -/
theorem run_agrees_divided :
    let s : Session := { desk := .ofPieces (Source.ofString "1 2 = 3 / 0 = 4") }
    evaluate "1 2 = 3 / 0 = 4" = .error (.mistake 1 .divisionByZero) ∧
      (∃ later, s.run.2.err.text = "Error on line 1: Division by zero.\n" ++ later) ∧
        ∃ later, s.run.2.out.text = "=1\n=2\n" ++ later := by
  intro s
  have hvalue : evaluate "1 2 = 3 / 0 = 4" = .error (.mistake 1 .divisionByZero) := by decide +kernel
  have hagrees := run_agrees (by decide : 6 ≤ maxPrecision) "1 2 = 3 / 0 = 4" {} {} ⟨rfl, rfl⟩ ⟨rfl, rfl⟩
  rw [hvalue] at hagrees
  obtain ⟨-, ⟨later, hreport⟩, lines, hmap, later', hlines⟩ := hagrees
  have hleading : s.desk.leading.1.mapM (resultLine? 6) = some ["=1", "=2"] := by decide +kernel
  obtain rfl := Option.some.inj (hmap.symm.trans hleading)
  exact ⟨hvalue, ⟨later, hreport⟩, later', hlines⟩

end Session

end Reckoner
