/-
  Reckoner.Proofs.FailedReads — a failed read and what is behind it.

  A read may fail at any depth of a statement, behind a token that is looked at, or while a mistake
  is skipped. Whatever was asked for then fails at once, with that read. The scanner is left as a
  new one over the pieces behind the failure, except that its lines are counted on: the lines that
  came before are used up, and of the line that was broken off nothing was given.

  - `split_reads`: a failure among the reads of a source is one of its pieces, and the lines in
    front of it are those that were complete.
  - `comes_next`, `comes_skipPast`, `comes_ended`, `comes_nextValue`: each operation reads lines
    only, or fails with the first read that fails.
  - `runComes_run`: a run, turn by turn.
  - `over_performAll`: any calls keep a session over its source, so that all this holds of it again.
-/

import Mathlib.Data.List.Basic
import Reckoner.Proofs.Asked
import Reckoner.Proofs.Lines
import Reckoner.Proofs.Phases
import Reckoner.Proofs.Sessions

namespace Reckoner

open Scanner

/-! ## Sources -/

namespace Source

/-- The lines of a source that are complete, and its failures. Bytes that stand in front of a
    failure, or at the end, without a newline are no part of it. -/
def wholeFrom (begun : List UInt8) : List Piece → List Read
  | [] => []
  | .bytes b :: pieces =>
    let (lines, rest) := cutLines (begun ++ b)
    lines.map lineRead ++ wholeFrom rest pieces
  | .failure message :: pieces => .failure message :: wholeFrom [] pieces

def whole (pieces : List Piece) : List Read := wholeFrom [] pieces

theorem isLine_of_mem_wholeFrom {begun : List UInt8} {pieces : List Piece} {line : List Char}
    (h : .line line ∈ wholeFrom begun pieces) : IsLine line := by
  induction pieces generalizing begun with
  | nil => cases h
  | cons piece pieces ih =>
    cases piece with
    | bytes b =>
      rcases List.mem_append.mp h with h | h
      · obtain ⟨bytes, hb, hl⟩ := List.mem_map.mp h
        obtain rfl := Read.line.inj hl
        exact isLine_decode hb
      · exact ih h
    | failure message =>
      rcases List.mem_cons.mp h with h | h
      · cases h
      · exact ih h

/-- A line is no failed read: what fails comes behind the lines in front. -/
theorem behind_lines {lines : List (List UInt8)} {rest front back : List Read} {message : String}
    (h : lines.map lineRead ++ rest = front ++ .failure message :: back) :
    ∃ later, front = lines.map lineRead ++ later ∧ rest = later ++ .failure message :: back := by
  induction lines generalizing front with
  | nil => exact ⟨front, rfl, h⟩
  | cons line lines ih =>
    rcases front with _ | ⟨read, front⟩
    · cases (List.cons.inj h).1
    · obtain ⟨rfl, hrest⟩ := List.cons.inj h
      obtain ⟨later, rfl, hlater⟩ := ih hrest
      exact ⟨later, rfl, hlater⟩

/-- A failed read is a piece of the source. The reads in front of it are the complete lines and the
    failures in front of that piece, and those behind it are the reads of the pieces behind. -/
theorem split_readsFrom {begun : List UInt8} {pieces : List Piece} {message : String} {front back : List Read}
    (h : readsFrom begun pieces = front ++ .failure message :: back) :
    ∃ before after, pieces = before ++ .failure message :: after ∧ front = wholeFrom begun before ∧
      back = reads after := by
  induction pieces generalizing begun front with
  | nil =>
    have hm : Read.failure message ∈ readsFrom begun [] := h ▸ List.mem_append_right _ List.mem_cons_self
    unfold readsFrom at hm
    split at hm
    · cases hm
    · cases List.mem_singleton.mp hm
  | cons piece pieces ih =>
    cases piece with
    | bytes b =>
      obtain ⟨later, rfl, hlater⟩ := behind_lines h
      obtain ⟨before, after, rfl, rfl, rfl⟩ := ih hlater
      exact ⟨.bytes b :: before, after, rfl, rfl, rfl⟩
    | failure m =>
      rcases front with _ | ⟨read, front⟩
      · obtain ⟨hm, rfl⟩ := List.cons.inj h
        obtain rfl := Read.failure.inj hm
        exact ⟨[], pieces, rfl, rfl, rfl⟩
      · obtain ⟨rfl, hrest⟩ := List.cons.inj h
        obtain ⟨before, after, rfl, rfl, rfl⟩ := ih hrest
        exact ⟨.failure m :: before, after, rfl, rfl, rfl⟩

theorem split_reads {pieces : List Piece} {message : String} {front back : List Read}
    (h : reads pieces = front ++ .failure message :: back) :
    ∃ before after, pieces = before ++ .failure message :: after ∧ front = whole before ∧ back = reads after :=
  split_readsFrom h

end Source

/-! ## Scanners -/

namespace Scanner

/-- A scanner that has read a first part of a source, and all of it if it met the end. What it has
    put back, the text of its line and the number of that line may be any. -/
structure Over (pieces : List Piece) (s : Scanner) : Prop where
  behind : s.reads <:+ Source.reads pieces
  ended : s.ended = true → s.reads = []

/-- On the way from `s` to `t` some lines were read, perhaps none, and nothing else. -/
structure Goes (s t : Scanner) : Prop where
  lines : ∃ lines : List (List Char), s.reads = lines.map .line ++ t.reads ∧ t.line = s.line + lines.length
  ended : t.ended = s.ended ∨ t.reads = []

/-- Behind some lines a read failed, and `t` is what was left. -/
def Breaks (s : Scanner) (message : String) (t : Scanner) : Prop :=
  ∃ (lines : List (List Char)) (after : List Read), s.reads = lines.map .line ++ .failure message :: after ∧
    t = { line := s.line + lines.length, reads := after, ended := s.ended }

/-- The same over a source. The lines were complete, and came in front of the piece that failed;
    what is left is a new scanner over the pieces behind it, which counts the lines on. -/
def Fails (pieces : List Piece) (s : Scanner) (message : String) (t : Scanner) : Prop :=
  ∃ (before after : List Piece) (lines : List (List Char)), pieces = before ++ .failure message :: after ∧
    s.reads = lines.map .line ++ .failure message :: Source.reads after ∧
    lines.map .line <:+ Source.whole before ∧ (∀ line ∈ lines, IsLine line) ∧
    t = { Scanner.ofPieces after with line := s.line + lines.length }

/-- What comes of an operation on `s`. It fails with a read as `fails` has it; with any other
    answer no read has failed. -/
def Comes {α : Type} (s : Scanner) (fails : String → Scanner → Prop) (a : Except Failure α × Scanner) : Prop :=
  match a.1 with
  | .error (.io message) => fails message a.2
  | _ => s.Goes a.2

variable {pieces : List Piece} {s t u : Scanner} {message : String} {α β : Type}

theorem goes_of_reads (hr : t.reads = s.reads) (hl : t.line = s.line) (he : t.ended = s.ended) : s.Goes t :=
  ⟨⟨[], hr.symm, hl⟩, .inl he⟩

theorem Goes.trans (h : s.Goes t) (h' : t.Goes u) : s.Goes u := by
  obtain ⟨lines, hr, hl⟩ := h.lines
  obtain ⟨lines', hr', hl'⟩ := h'.lines
  refine ⟨⟨lines ++ lines', ?_, ?_⟩, ?_⟩
  · rw [hr, hr', List.map_append, List.append_assoc]
  · rw [hl', hl, List.length_append, Nat.add_assoc]
  · rcases h'.ended with he' | he'
    · rcases h.ended with he | he
      · exact .inl (he'.trans he)
      · rw [he] at hr'
        exact .inr (List.append_eq_nil_iff.mp hr'.symm).2
    · exact .inr he'

theorem Goes.breaks (h : s.Goes t) (h' : t.Breaks message u) : s.Breaks message u := by
  obtain ⟨lines, hr, hl⟩ := h.lines
  obtain ⟨lines', after, hr', rfl⟩ := h'
  have he : t.ended = s.ended := by
    apply h.ended.resolve_right
    simp [hr']
  refine ⟨lines ++ lines', after, ?_, ?_⟩
  · rw [hr, hr', List.map_append, List.append_assoc]
  · rw [hl, he, List.length_append, Nat.add_assoc]

theorem Goes.over (h : s.Goes t) (ho : s.Over pieces) : t.Over pieces := by
  obtain ⟨lines, hr, -⟩ := h.lines
  have hsuffix : t.reads <:+ s.reads := ⟨_, hr.symm⟩
  refine ⟨hsuffix.trans ho.behind, ?_⟩
  intro ht
  rcases h.ended with he | he
  · have hs := ho.ended (he ▸ ht)
    rw [hr] at hs
    exact (List.append_eq_nil_iff.mp hs).2
  · exact he

/-- A scanner that has still a failure to read has not met the end. -/
theorem Breaks.ended (h : s.Breaks message t) (ho : s.Over pieces) : s.ended = false := by
  obtain ⟨lines, after, hr, -⟩ := h
  rcases he : s.ended with _ | _
  · rfl
  · have hnil := ho.ended he
    simp [hr] at hnil

theorem Breaks.over (h : s.Breaks message t) (ho : s.Over pieces) : t.Over pieces := by
  have hended := h.ended ho
  obtain ⟨lines, after, hr, rfl⟩ := h
  have hsuffix : after <:+ s.reads := ⟨lines.map .line ++ [.failure message], by simp [hr]⟩
  refine ⟨hsuffix.trans ho.behind, ?_⟩
  intro ht
  rw [hended] at ht
  cases ht

theorem Breaks.fails (h : s.Breaks message t) (ho : s.Over pieces) : s.Fails pieces message t := by
  have hended := h.ended ho
  obtain ⟨lines, rest, hr, rfl⟩ := h
  obtain ⟨front, hf⟩ := ho.behind
  rw [hr, ← List.append_assoc] at hf
  obtain ⟨before, after, rfl, hbefore, rfl⟩ := Source.split_reads hf.symm
  have hwhole : lines.map .line <:+ Source.whole before := ⟨front, hbefore⟩
  refine ⟨before, after, lines, rfl, hr, hwhole, ?_, ?_⟩
  · intro line hm
    exact Source.isLine_of_mem_wholeFrom (hwhole.subset (List.mem_map_of_mem hm))
  · rw [hended]
    rfl

/-- An answer comes of another scanner too, if what it comes with does. -/
theorem Comes.imp {fails fails' : String → Scanner → Prop} {a : Except Failure α × Scanner} (h : t.Comes fails a)
    (goes : ∀ {u}, t.Goes u → s.Goes u) (breaks : ∀ {m u}, fails m u → fails' m u) : s.Comes fails' a := by
  obtain ⟨(⟨line, m⟩ | line | message) | v, u⟩ := a
  · exact goes h
  · exact goes h
  · exact breaks h
  · exact goes h

theorem Goes.comes (h : s.Goes t) {a : Except Failure α × Scanner} (ha : t.Comes t.Breaks a) : s.Comes s.Breaks a :=
  ha.imp h.trans h.breaks

theorem Comes.fails {a : Except Failure α × Scanner} (h : s.Comes s.Breaks a) (ho : s.Over pieces) :
    s.Comes (s.Fails pieces) a :=
  h.imp id fun hb => Breaks.fails hb ho

theorem Comes.over {a : Except Failure α × Scanner} (h : s.Comes s.Breaks a) (ho : s.Over pieces) : a.2.Over pieces := by
  obtain ⟨(⟨line, m⟩ | line | message) | v, t⟩ := a
  · exact Goes.over h ho
  · exact Goes.over h ho
  · exact Breaks.over h ho
  · exact Goes.over h ho

/-- A failure that is passed on. -/
theorem Comes.passed {fails : String → Scanner → Prop} {f : Failure}
    (h : s.Comes fails ((.error f, t) : Except Failure α × Scanner)) :
    s.Comes fails ((.error f, t) : Except Failure β × Scanner) := by
  cases f with
  | mistake line m => exact h
  | heldTwice line => exact h
  | io message => exact h

/-! ### Operations -/

theorem over_ofPieces (pieces : List Piece) : (ofPieces pieces).Over pieces := ⟨List.suffix_refl _, nofun⟩

theorem over_putBack (h : s.Over pieces) (token : Token) : (s.putBack token).2.Over pieces := by
  unfold putBack
  split <;> exact ⟨h.behind, h.ended⟩

theorem comes_advance (held : Option Token) (ended : Bool) (text : List Char) (line : Nat) (reads : List Read) :
    let s : Scanner := { held, text, line, reads, ended }
    s.Comes s.Breaks (advance ended text line reads) := by
  intro s
  fun_induction advance ended text line reads with
  | case1 => exact goes_of_reads rfl rfl rfl
  | case2 => exact goes_of_reads rfl rfl rfl
  | case3 => exact ⟨⟨[], rfl, rfl⟩, .inr rfl⟩
  | case4 text line message reads _ => exact ⟨[], reads, rfl, rfl⟩
  | case5 text line next reads _ ih =>
    have h : s.Goes { held, text := next, line := line + 1, reads, ended } := ⟨⟨[next], rfl, rfl⟩, .inl rfl⟩
    exact h.comes ih

theorem comes_next (s : Scanner) : s.Comes s.Breaks s.next := by
  unfold next
  split
  · exact goes_of_reads rfl rfl rfl
  · exact comes_advance s.held _ _ _ _

theorem comes_seek (c : Char) (held : Option Token) (ended : Bool) (text : List Char) (line : Nat) (reads : List Read) :
    let s : Scanner := { held, text, line, reads, ended }
    s.Comes s.Breaks (seek c ended text line reads) := by
  intro s
  fun_induction seek c ended text line reads with
  | case1 => exact goes_of_reads rfl rfl rfl
  | case2 => exact ⟨⟨[], rfl, rfl⟩, .inr rfl⟩
  | case3 text line message reads _ => exact ⟨[], reads, rfl, rfl⟩
  | case4 text line next reads _ ih =>
    have h : s.Goes { held, text := next, line := line + 1, reads, ended } := ⟨⟨[next], rfl, rfl⟩, .inl rfl⟩
    exact h.comes ih

theorem comes_skipPast (c : Char) (s : Scanner) : s.Comes s.Breaks (s.skipPast c) := by
  unfold skipPast
  split
  · split
    · exact goes_of_reads rfl rfl rfl
    · exact comes_seek c s.held _ _ _ _
  · exact comes_seek c s.held _ _ _ _

end Scanner

/-! ## Statements -/

section

variable {b : Bindings} {level : Calculation.Level} {origin p : Phase} {first s : Scanner} {w : List Token}

theorem Reached.goes (h : Reached b level origin first w p s) : first.Goes s := by
  induction h with
  | none => exact goes_of_reads rfl rfl rfl
  | @more w p next s after t h read step ih =>
    have hn := comes_next s
    rw [read] at hn
    exact ih.trans hn

theorem comes_finish (result : Except Mistake Binary64) (left : Bool) (t : Token) (s : Scanner) :
    s.Comes s.Breaks (Calculation.finish result left t s) := by
  unfold Calculation.finish putBack
  cases left with
  | false => cases result <;> exact goes_of_reads rfl rfl rfl
  | true =>
    cases s.held with
    | none => cases result <;> exact goes_of_reads rfl rfl rfl
    | some u => exact goes_of_reads rfl rfl rfl

theorem comes_ended {a : Except Failure Binary64 × Scanner} (h : Ended b level origin first a) :
    first.Comes first.Breaks a := by
  cases h with
  | @failed w p s after f h read =>
    have hn := comes_next s
    rw [read] at hn
    exact h.goes.comes hn.passed
  | @stopped w p s after t result left h read step =>
    have hn := comes_next s
    rw [read] at hn
    exact (h.goes.trans hn).comes (comes_finish result left t after)

end

namespace Desk

theorem comes_firstToken (s : Scanner) : s.Comes s.Breaks (firstToken s) := by
  fun_induction firstToken s with
  | case1 s f after hn =>
    have h := comes_next s
    rwa [hn] at h
  | case2 s after hn ih =>
    have h := comes_next s
    rw [hn] at h
    exact Goes.comes h ih
  | case3 s t after hn =>
    have h := comes_next s
    rwa [hn] at h

theorem comes_statement (d : Desk) : d.scanner.Comes d.scanner.Breaks (d.statement.1, d.statement.2.scanner) :=
  comes_ended (ended_statement d)

theorem comes_nextValue (d : Desk) : d.scanner.Comes d.scanner.Breaks (d.nextValue.1, d.nextValue.2.scanner) := by
  have h := comes_firstToken d.scanner
  rcases hf : firstToken d.scanner with ⟨f | t, s⟩
  · rw [hf] at h
    rw [nextValue_of_error hf]
    exact h.passed
  rw [hf] at h
  by_cases hq : t = .keyword .exit ∨ t = .endOfInput
  · rw [nextValue_of_end hf hq]
    exact h
  · rw [nextValue_of_token hf hq]
    have hheld : s.Goes { s with held := some t } := goes_of_reads rfl rfl rfl
    have hs := (Goes.trans h hheld).comes (comes_statement { d with scanner := { s with held := some t } })
    rcases ha : statement { d with scanner := { s with held := some t } } with ⟨f | v, after⟩
    · rw [ha] at hs
      exact hs.passed
    · rw [ha] at hs
      exact hs

/-! ### A statement that fails declares nothing -/

variable {d : Desk} {f : Failure}

theorem bindings_bindTo_of_error {name : String} (h : (d.bindTo name).1 = .error f) :
    (d.bindTo name).2.bindings = d.bindings := by
  have hb : (d.calculate .expression).2.bindings = d.bindings := rfl
  rcases hc : d.calculate .expression with ⟨g | v, after⟩
  · rw [hc] at hb
    rw [bindTo_of_error hc]
    exact hb
  · rw [hc] at hb
    rw [bindTo_of_ok hc] at h ⊢
    split at h
    · rename_i hbound
      rw [if_pos hbound]
      exact hb
    · cases h

theorem bindings_declaration_of_error (h : d.declaration.1 = .error f) : d.declaration.2.bindings = d.bindings := by
  unfold declaration at h ⊢
  split
  · rfl
  · rename_i name s hn
    rw [hn] at h
    dsimp only at h
    split
    · rfl
    · rename_i t s' hn'
      rw [hn'] at h
      dsimp only at h
      split
      · rename_i ht
        rw [if_pos ht] at h
        exact bindings_bindTo_of_error h
      · rfl
  · rfl
  · rfl

theorem bindings_statement_of_error (h : d.statement.1 = .error f) : d.statement.2.bindings = d.bindings := by
  rcases hn : d.scanner.next with ⟨g | t, s⟩
  · rw [statement_of_error hn]
  by_cases ht : t = .keyword .declare
  · subst ht
    rw [statement_of_declare hn] at h ⊢
    exact bindings_declaration_of_error h
  · rw [statement_of_token hn ht]
    rfl

theorem bindings_nextValue_of_error (h : d.nextValue.1 = .error f) : d.nextValue.2.bindings = d.bindings := by
  rcases hf : firstToken d.scanner with ⟨g | t, s⟩
  · rw [nextValue_of_error hf]
  by_cases hq : t = .keyword .exit ∨ t = .endOfInput
  · rw [nextValue_of_end hf hq]
  · rw [nextValue_of_token hf hq] at h ⊢
    rcases ha : statement { d with scanner := { s with held := some t } } with ⟨g | v, after⟩
    · have hb := bindings_statement_of_error (congrArg Prod.fst ha)
      rwa [ha] at hb
    · rw [ha] at h
      cases h

end Desk

/-! ## Sessions -/

namespace Session

/-- Turns after which the run goes on lead from a session to another one. -/
inductive Turns : Session → Session → Prop
  | none (s : Session) : Turns s s
  | more {s u : Session} (h : s.turn.1 = none) (rest : Turns s.turn.2 u) : Turns s u

/-- The session after a turn at which a read failed. The mistake that was being skipped, if there
    was one, is reported; nothing else has changed but the scanner. -/
def brokenOff (s : Session) (scanner : Scanner) : Session :=
  { s with desk.scanner := scanner, err := s.err.extended (reported [s.desk]) }

/-- What comes of a turn: lines were read, or a read failed and ended the run. -/
inductive TurnComes (s : Session) : Option Ending × Session → Prop
  | goes {ending : Option Ending} {after : Session} (h : s.desk.scanner.Goes after.desk.scanner) :
    TurnComes s (ending, after)
  | breaks {message : String} {scanner : Scanner} (h : s.desk.scanner.Breaks message scanner) :
    TurnComes s (some (.failed (.io message)), s.brokenOff scanner)

/-- What comes of a run over `pieces`: lines were read, or after some turns one came at which a read
    failed, and that was the last. -/
inductive RunComes (pieces : List Piece) (s : Session) : Prop
  | goes (h : s.desk.scanner.Goes s.run.2.desk.scanner)
  | fails {u : Session} {message : String} {scanner : Scanner} (turns : s.Turns u)
    (goes : s.desk.scanner.Goes u.desk.scanner) (fails : u.desk.scanner.Fails pieces message scanner)
    (run : s.run = (.failed (.io message), u.brokenOff scanner))

theorem turnComes_recover {s : Session} {line : Nat} {m : Mistake} {after : Desk}
    (hn : s.desk.nextValue = (.error (.mistake line m), after)) :
    s.TurnComes ({ s with desk := after }.recover (.mistake line m)) := by
  obtain ⟨rest, bindings⟩ := after
  have hgoes := s.desk.comes_nextValue
  obtain rfl : bindings = s.desk.bindings := by
    have hb := Desk.bindings_nextValue_of_error (congrArg Prod.fst hn)
    rwa [hn] at hb
  rw [hn] at hgoes
  have herr := Sink.writeLine_extended (Failure.mistake line m).message s.err
  rw [← reported_of_some (Desk.mistake?_of_mistake hn)] at herr
  unfold recover
  split
  · exact .goes hgoes
  · rename_i err hw
    obtain rfl : err = s.err.extended (reported [s.desk]) := by
      rw [← herr, hw]
    have hskip := Goes.comes hgoes (comes_skipPast Symbol.equals.char rest)
    dsimp only
    generalize rest.skipPast Symbol.equals.char = a at hskip ⊢
    obtain ⟨(⟨_, _⟩ | _ | message) | ⟨⟩, scanner⟩ := a
    · exact .goes hskip
    · exact .goes hskip
    · exact .breaks hskip
    · exact .goes hskip

theorem turnComes_turn (s : Session) : s.TurnComes s.turn := by
  have hc := s.desk.comes_nextValue
  have hb := fun f => Desk.bindings_nextValue_of_error (d := s.desk) (f := f)
  unfold turn nextValue
  rcases hn : s.desk.nextValue with ⟨f | _ | v, rest, bindings⟩
  · rw [hn] at hc hb
    cases f with
    | mistake line m => exact turnComes_recover hn
    | heldTwice line => exact .goes hc
    | io message =>
      obtain rfl : bindings = s.desk.bindings := hb _ rfl
      have hsession : s.brokenOff rest = { s with desk := ⟨rest, s.desk.bindings⟩ } := by
        rw [brokenOff, reported_of_none (Desk.mistake?_of_lost hn rfl), Sink.extended_empty]
      show s.TurnComes (some (.failed (.io message)), { s with desk := ⟨rest, s.desk.bindings⟩ })
      rw [← hsession]
      exact .breaks hc
  · rw [hn] at hc
    exact .goes hc
  · rw [hn] at hc
    have hd := desk_printValue v { s with desk := ⟨rest, bindings⟩ }
    show s.TurnComes ({ s with desk := ⟨rest, bindings⟩ }.printValue v)
    rcases hp : ({ s with desk := ⟨rest, bindings⟩ } : Session).printValue v with ⟨ending, after⟩
    rw [hp] at hd
    exact .goes (hd ▸ hc)

theorem runComes_run {pieces : List Piece} {s : Session} (h : s.desk.scanner.Over pieces) : s.RunComes pieces := by
  fun_induction run s with
  | case1 s ending after hn =>
    have ht := turnComes_turn s
    have hrun := run_of_end (congrArg Prod.fst hn)
    rw [hn] at ht hrun
    cases ht with
    | goes hg => exact .goes (hrun ▸ hg)
    | breaks hb => exact .fails (.none s) (goes_of_reads rfl rfl rfl) (hb.fails h) hrun
  | case2 s after hn ih =>
    have ht := turnComes_turn s
    have hgoes : s.turn.1 = none := congrArg Prod.fst hn
    have hrun := run_of_goes hgoes
    rw [hn] at ht hrun
    cases ht with
    | goes hg =>
      cases ih (hg.over h) with
      | goes hg' => exact .goes (hrun ▸ hg.trans hg')
      | fails turns hg' hf hlast =>
        refine .fails (.more hgoes ?_) (hg.trans hg') hf (hrun.trans hlast)
        rwa [hn]

/-! ### Sessions over a source -/

variable {pieces : List Piece} {s : Session}

theorem over_turn (h : s.desk.scanner.Over pieces) : s.turn.2.desk.scanner.Over pieces := by
  have ht := turnComes_turn s
  rcases hn : s.turn with ⟨ending, after⟩
  rw [hn] at ht
  cases ht with
  | goes hg => exact hg.over h
  | breaks hb => exact hb.over h

theorem over_run (h : s.desk.scanner.Over pieces) : s.run.2.desk.scanner.Over pieces := by
  fun_induction run s with
  | case1 s ending after hn =>
    have ht := over_turn h
    rwa [hn] at ht
  | case2 s after hn ih =>
    have ht := over_turn h
    rw [hn] at ht
    exact ih ht

/-- Whatever is asked of a session, it stays over its source. -/
theorem over_performAll (h : s.desk.scanner.Over pieces) (calls : List Call) :
    (s.performAll calls).desk.scanner.Over pieces := by
  induction calls generalizing s with
  | nil => exact h
  | cons call calls ih =>
    apply ih
    cases call with
    | nextValue => exact (s.desk.comes_nextValue).over h
    | turn => exact over_turn h
    | run => exact over_run h
    | banner => exact h
    | equip precision out err => exact h

/-- A read of the source that fails is the answer of the operation that met it, for a token, for
    skipping, for a value and for a run. All lines that were read before it were complete, and the
    scanner is left as a new one over the pieces behind it, with nothing put back and the lines
    counted on. The sinks and variables are those before the statement, but for the report of the
    mistake that was being skipped. An operation with another answer met no such read. -/
theorem failed_reads_left_behind {t : Scanner} (ht : t.Over pieces) (c : Char) (h : s.desk.scanner.Over pieces) :
    t.Comes (t.Fails pieces) t.next ∧ t.Comes (t.Fails pieces) (t.skipPast c) ∧
      s.desk.scanner.Comes (s.desk.scanner.Fails pieces) (s.nextValue.1, s.nextValue.2.desk.scanner) ∧
        (∀ f, s.nextValue.1 = .error f → s.nextValue.2 = { s with desk.scanner := s.nextValue.2.desk.scanner }) ∧
          s.RunComes pieces := by
  refine ⟨(comes_next t).fails ht, (comes_skipPast c t).fails ht, s.desk.comes_nextValue.fails h, ?_, runComes_run h⟩
  intro f hf
  have hb := Desk.bindings_nextValue_of_error hf
  show { s with desk := s.desk.nextValue.2 } = { s with desk := ⟨s.desk.nextValue.2.scanner, s.desk.bindings⟩ }
  rw [← hb]

/-- The read fails inside a declaration, on its second line, and the bracket that was read of the
    third one is lost. So is a token that was put back, where a character is looked for in vain. -/
theorem failed_reads_left_behind_unplugged :
    let after : List Piece := Source.ofString "x\n4"
    let pieces : List Piece := Source.ofString "1 =\nlet x = 2 +\n(" ++ .failure "unplugged" :: after
    let rest : Scanner := { Scanner.ofPieces after with line := 2 }
    let t := ((Scanner.ofPieces pieces).putBack (.symbol .plus)).2
    let s := (Session.ofPieces pieces).performAll [.nextValue]
    t.skipPast ';' = (.error (.io "unplugged"), rest) ∧ t.Fails pieces "unplugged" rest ∧
      s.run = (.failed (.io "unplugged"), s.brokenOff rest) ∧ s.RunComes pieces ∧
        s.run.2.run.2.err.text = "Error on line 3: Undefined variable 'x'.\n" := by
  intro after pieces rest t s
  have ht : t.Over pieces := over_putBack (over_ofPieces pieces) _
  have hs : s.desk.scanner.Over pieces := over_performAll (over_ofPieces pieces) _
  have hskip : t.skipPast ';' = (.error (.io "unplugged"), rest) := by decide +kernel
  have hrun : s.run = (.failed (.io "unplugged"), s.brokenOff rest) := by decide +kernel
  have hagain : s.run.2.run.2.err.text = "Error on line 3: Undefined variable 'x'.\n" := by decide +kernel
  obtain ⟨-, hfails, -, -, hcomes⟩ := failed_reads_left_behind ht ';' hs
  rw [hskip] at hfails
  exact ⟨hskip, hfails, hrun, hcomes, hagain⟩

end Session

end Reckoner
