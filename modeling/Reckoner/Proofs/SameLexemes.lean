/-
  Reckoner.Proofs.SameLexemes — only the lexemes of a source matter.

  How lexemes are spelled, and how blanks and lines separate them, makes no difference to what a
  run writes and binds, other than to the lines that its messages name. This holds through every
  recovery too, although skipping goes by characters.

  - `turn_alike`: one turn keeps two sessions alike.
  - `run_same_lexemes`: so does a run over two sources with the same lexemes.
-/

import Reckoner.Proofs.InStep
import Reckoner.Proofs.Sessions
import Reckoner.Proofs.Skipping

namespace Reckoner

open Scanner

/-- The same mistake, on any line. -/
inductive Failure.SameMistake : Failure → Failure → Prop
  | mistake (line line' : Nat) (m : Mistake) : SameMistake (.mistake line m) (.mistake line' m)

theorem Scanner.inStep_ahead : InStep Failure.SameMistake (Ahead none) (Ahead none) where
  next := by
    intro s t h
    cases next_ahead h with
    | token u s' t' next next' ahead back _ =>
      rw [next, next']
      exact .ok u ahead
    | stray line line' c s' t' next next' ahead =>
      rw [next, next']
      exact .error (.mistake line line' (.strayCharacter c)) ahead
    | parted rest _ _ there => cases there
  again := id
  hold := ahead_none_hold
  mistake := by
    intro s t h m
    exact .mistake s.line t.line m

/-! ## Desks -/

namespace Desk

/-- Two desks with the same lexemes to read and the same variables. -/
structure Alike (d e : Desk) : Prop where
  scanner : Ahead none d.scanner e.scanner
  bindings : e.bindings = d.bindings

/-- The same answer at both, and desks that are alike behind it. -/
structure AlikeAfter {α : Type} (a b : Except Failure α × Desk) : Prop where
  answer : Matches a.1 b.1
  desk : Alike a.2 b.2

variable {d e : Desk}

theorem Alike.withScanners {s t : Scanner} (h : Alike d e) (ha : Ahead none s t) :
    Alike { d with scanner := s } { e with scanner := t } := ⟨ha, h.bindings⟩

theorem nextValue_alike (h : Alike d e) : AlikeAfter d.nextValue e.nextValue := by
  have hn := nextValue_inStep inStep_ahead ⟨h.scanner, h.bindings⟩
  generalize d.nextValue = a at hn ⊢
  generalize e.nextValue = b at hn ⊢
  cases hn with
  | ok v h => exact ⟨.ok v, h.scanner, h.bindings⟩
  | error hf h =>
    cases hf with
    | mistake line line' m => exact ⟨.mistake line line' m, h.scanner, h.bindings⟩

end Desk

/-! ## Skipping -/

theorem Scanner.ahead_skipPast {d : Symbol} (hd : d.IsDelimiter) {s t : Scanner} (h : Ahead none s t) :
    Ahead none (s.skipPast d.char).2 (t.skipPast d.char).2 := by
  obtain ⟨hs, ht, hl⟩ := ahead_none_iff.mp h
  refine ahead_none_iff.mpr ⟨unbroken_of_suffix hs (suffix_reads_skipPast _ _),
    unbroken_of_suffix ht (suffix_reads_skipPast _ _), ?_⟩
  rw [(lexemes_skipPast hd hs).2, (lexemes_skipPast hd ht).2, hl]

/-! ## Sessions -/

/-- Texts that are the same but for the lines that the messages in them name. -/
inductive SameButLines : String → String → Prop
  | refl (text : String) : SameButLines text text
  | report {a b : String} (h : SameButLines a b) (line line' : Nat) (m : Mistake) :
    SameButLines (a ++ ((Failure.mistake line m).message ++ "\n")) (b ++ ((Failure.mistake line' m).message ++ "\n"))

namespace Session

/-- Sessions with the same lexemes to read that have written the same, but for lines. -/
structure Alike (s t : Session) : Prop where
  desk : Desk.Alike s.desk t.desk
  precision : t.precision = s.precision
  out : t.out = s.out
  errors : SameButLines s.err.text t.err.text
  writeFault : t.err.writeFault = s.err.writeFault

variable {s t : Session}

theorem printValue_alike (h : Alike s t) (v : Binary64) :
    (t.printValue v).1 = (s.printValue v).1 ∧ Alike (s.printValue v).2 (t.printValue v).2 := by
  unfold printValue
  rw [h.precision, h.out]
  split
  · exact ⟨rfl, h⟩
  · exact ⟨rfl, h.desk, rfl, rfl, h.errors, h.writeFault⟩

theorem recover_alike (h : Alike s t) (line line' : Nat) (m : Mistake) :
    (t.recover (.mistake line' m)).1 = (s.recover (.mistake line m)).1 ∧
      Alike (s.recover (.mistake line m)).2 (t.recover (.mistake line' m)).2 := by
  have hd := Symbol.isDelimiter_equals
  have hs := (lexemes_skipPast hd h.desk.scanner.unbroken).1
  have ht := (lexemes_skipPast hd h.desk.scanner.unbroken').1
  unfold recover Sink.writeLine Sink.write
  rw [h.writeFault]
  rcases hw : s.err.writeFault with _ | message
  · exact ⟨congrArg proceed (ht.trans hs.symm), h.desk.withScanners (ahead_skipPast hd h.desk.scanner), h.precision,
      h.out, h.errors.report line line' m, rfl⟩
  · exact ⟨rfl, h.desk, h.precision, h.out, h.errors, h.writeFault⟩

theorem close_alike (h : Alike s t) : t.close = s.close := by rw [close, close, h.out]

theorem turn_alike (h : Alike s t) : t.turn.1 = s.turn.1 ∧ Alike s.turn.2 t.turn.2 := by
  have hn := Desk.nextValue_alike h.desk
  unfold turn nextValue
  generalize s.desk.nextValue = a at hn
  generalize t.desk.nextValue = b at hn
  obtain ⟨ra, d⟩ := a
  obtain ⟨rb, e⟩ := b
  obtain ⟨hm, hdesk⟩ := hn
  have hafter : Alike { s with desk := d } { t with desk := e } :=
    ⟨hdesk, h.precision, h.out, h.errors, h.writeFault⟩
  cases hm with
  | ok v =>
    rcases v with _ | v
    · exact ⟨congrArg some (close_alike hafter), hafter⟩
    · exact printValue_alike hafter v
  | mistake line line' m => exact recover_alike hafter line line' m

theorem run_alike (h : Alike s t) : t.run.1 = s.run.1 ∧ Alike s.run.2 t.run.2 := by
  fun_induction run s generalizing t with
  | case1 s ending after hn =>
    obtain ⟨he, ha⟩ := turn_alike h
    rw [hn] at he ha
    rw [run_of_end he]
    exact ⟨rfl, ha⟩
  | case2 s after hn ih =>
    obtain ⟨he, ha⟩ := turn_alike h
    rw [hn] at he ha
    rw [run_of_goes he]
    exact ih ha

theorem alike_fresh {chunks chunks' : List (List UInt8)}
    (h : Lexeme.all (Utf8.decode chunks.flatten) = Lexeme.all (Utf8.decode chunks'.flatten)) (precision : Nat)
    (out err : Sink) :
    Alike (fresh (chunks.map .bytes) precision out err) (fresh (chunks'.map .bytes) precision out err) := by
  refine ⟨⟨ahead_none_iff.mpr ⟨unbroken_ofPieces chunks, unbroken_ofPieces chunks', ?_⟩, rfl⟩, rfl, rfl, .refl _, rfl⟩
  show (Scanner.ofPieces _).lexemes = (Scanner.ofPieces _).lexemes
  rw [lexemes_ofPieces, lexemes_ofPieces, h]

/-- Over sources with the same lexemes, however these are spelled and laid out in lines, runs end
    alike, write the same results, bind the same variables, and report the same mistakes, but for
    the lines they were noticed on. -/
theorem run_same_lexemes (chunks chunks' : List (List UInt8))
    (h : Lexeme.all (Utf8.decode chunks.flatten) = Lexeme.all (Utf8.decode chunks'.flatten))
    (precision : Nat) (out err : Sink) :
    let a := (fresh (chunks.map .bytes) precision out err).run
    let b := (fresh (chunks'.map .bytes) precision out err).run
    b.1 = a.1 ∧ b.2.out.text = a.2.out.text ∧ b.2.desk.bindings = a.2.desk.bindings ∧
      SameButLines a.2.err.text b.2.err.text := by
  intro a b
  obtain ⟨hend, hafter⟩ := run_alike (alike_fresh h precision out err)
  exact ⟨hend, congrArg Sink.text hafter.out, hafter.desk.bindings, hafter.errors⟩

/-- A number and the mark of a declaration spelled another way, and other lines: the results are
    the same, and the division by zero is reported on another line. -/
theorem run_same_lexemes_respelled :
    let first := ["let x = 1.0\nx/0 = 2".toUTF8.toList]
    let second := ["#x=1e0 x".toUTF8.toList, "/0\n\n=2".toUTF8.toList]
    let a := (fresh (first.map .bytes) 6 {} {}).run
    let b := (fresh (second.map .bytes) 6 {} {}).run
    Lexeme.all (Utf8.decode first.flatten) = Lexeme.all (Utf8.decode second.flatten) ∧
      a.2.out.text = "=1\n=2\n" ∧ b.2.out.text = "=1\n=2\n" ∧ SameButLines a.2.err.text b.2.err.text := by
  intro first second a b
  have h : Lexeme.all (Utf8.decode first.flatten) = Lexeme.all (Utf8.decode second.flatten) := by decide +kernel
  have ha : a.2.out.text = "=1\n=2\n" := by decide +kernel
  obtain ⟨-, hout, -, herr⟩ := run_same_lexemes first second h 6 {} {}
  exact ⟨h, ha, hout.trans ha, herr⟩

end Session

end Reckoner
