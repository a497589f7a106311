/-
  Reckoner.Proofs.Demand — a source is read as far as it is asked for.

  A line is asked for when the rest of the line before it is blank, and not sooner. So what stands
  behind some complete lines makes no difference to a session until one of its steps needs more
  than these lines. Up to there the steps come to the same over the lines alone, and over the lines
  with anything behind them, be it bytes or failures. An exit needs no more than its own line.

  - `reads_append`: behind complete lines a source is read as by itself.
  - `history_feed`: any steps, with anything behind.
  - `asked_late`: when a line is asked for.
  - `unended_of_exits`: a run that ends with an exit has not met the end of its source.
  - `read_on_demand`: all this for sources.
-/

import Mathlib.Data.List.TakeWhile
import Reckoner.Proofs.Asked
import Reckoner.Proofs.Phases
import Reckoner.Proofs.Thrifty

namespace Reckoner

open Scanner

/-! ## Complete lines -/

namespace Source

/-- The bytes behind the last failure. -/
def bytesAtEnd (begun : List UInt8) : List Piece → List UInt8
  | [] => begun
  | .bytes b :: pieces => bytesAtEnd (begun ++ b) pieces
  | .failure _ :: pieces => bytesAtEnd [] pieces

/-- No line is left open at the end: the last byte, if any stands there, is a newline. -/
def Complete (pieces : List Piece) : Prop := ∀ b ∈ (bytesAtEnd [] pieces).getLast?, b = Utf8.newline

instance (pieces : List Piece) : Decidable (Complete pieces) :=
  inferInstanceAs (Decidable (∀ b ∈ (bytesAtEnd [] pieces).getLast?, b = Utf8.newline))

/-- Bytes in front make no difference to the last one. -/
theorem getLast?_bytesAtEnd {front begun : List UInt8} {pieces : List Piece}
    (h : ∀ b ∈ (bytesAtEnd (front ++ begun) pieces).getLast?, b = Utf8.newline) :
    ∀ b ∈ (bytesAtEnd begun pieces).getLast?, b = Utf8.newline := by
  induction pieces generalizing begun with
  | nil =>
    intro b hb
    refine h b ?_
    show b ∈ (front ++ begun).getLast?
    have hb : begun.getLast? = some b := hb
    rw [List.getLast?_append, hb]
    rfl
  | cons piece pieces ih =>
    cases piece with
    | bytes bytes =>
      have hwhole : ∀ b ∈ (bytesAtEnd (front ++ (begun ++ bytes)) pieces).getLast?, b = Utf8.newline := by
        rw [← List.append_assoc]
        exact h
      exact ih hwhole
    | failure message => exact h

theorem readsFrom_append {begun : List UInt8} (hn : Utf8.newline ∉ begun) {pieces : List Piece}
    (h : ∀ b ∈ (bytesAtEnd begun pieces).getLast?, b = Utf8.newline) (more : List Piece) :
    readsFrom begun (pieces ++ more) = readsFrom begun pieces ++ reads more := by
  induction pieces generalizing begun with
  | nil =>
    by_cases hne : begun = []
    · subst hne
      rfl
    · have hlast : begun.getLast hne = Utf8.newline := h _ (List.getLast?_eq_some_getLast hne)
      exact absurd (hlast ▸ List.getLast_mem hne) hn
  | cons piece pieces ih =>
    cases piece with
    | bytes bytes =>
      have hrest : ∀ b ∈ (bytesAtEnd (cutLines (begun ++ bytes)).2 pieces).getLast?, b = Utf8.newline := by
        have hwhole : ∀ b ∈ (bytesAtEnd ((cutLines (begun ++ bytes)).1.flatten ++ (cutLines (begun ++ bytes)).2)
            pieces).getLast?, b = Utf8.newline := by
          rw [flatten_cutLines]
          exact h
        exact getLast?_bytesAtEnd hwhole
      show _ ++ readsFrom _ (pieces ++ more) = (_ ++ readsFrom _ pieces) ++ reads more
      rw [ih (newline_not_mem_rest _) hrest, List.append_assoc]
    | failure message => exact congrArg (Read.failure message :: ·) (ih List.not_mem_nil h)

/-- Behind complete lines a source is read as by itself. -/
theorem reads_append {pieces : List Piece} (h : Complete pieces) (more : List Piece) :
    reads (pieces ++ more) = reads pieces ++ reads more := readsFrom_append List.not_mem_nil h more

end Source

/-! ## When a line is asked for -/

namespace Scanner

/-- What is left of the line, and the lines that were read behind it, are blank. -/
def IsSpent (s : Scanner) (lines : List Read) : Prop := s.held = none ∧ ∀ c ∈ s.text ++ joined lines, isBlank c = true

/-- What a token has cost: a read was asked for only when all that came before it was blank, and so
    was the end. -/
structure AskedLate (s after : Scanner) (asked : List Read) : Prop where
  reads : s.reads = asked ++ after.reads
  spent : ∀ front read rest, asked = front ++ read :: rest → s.IsSpent front
  ended : after.ended = true → s.ended = true ∨ s.IsSpent asked

theorem blank_of_next? {text : List Char} (h : Lexeme.next? text = none) : ∀ c ∈ text, isBlank c = true := by
  unfold Lexeme.next? at h
  split at h
  · rename_i hd
    exact List.dropWhile_eq_nil_iff.mp hd
  · cases h

theorem isSpent_cons {s : Scanner} {next : List Char} {lines : List Read} (ht : ∀ c ∈ s.text, isBlank c = true)
    (h : ({ s with text := next } : Scanner).IsSpent lines) : s.IsSpent (.line next :: lines) := by
  refine ⟨h.1, ?_⟩
  intro c hc
  rcases List.mem_append.mp hc with hc | hc
  · exact ht c hc
  · exact h.2 c hc

theorem isSpent_nil {s : Scanner} (hs : s.held = none) (ht : ∀ c ∈ s.text, isBlank c = true) : s.IsSpent [] := by
  refine ⟨hs, ?_⟩
  rwa [joined, List.flatMap_nil, List.append_nil]

theorem asked_nothing {s after : Scanner} (hr : s.reads = after.reads) (he : after.ended = true → s.ended = true) :
    AskedLate s after [] := by
  refine ⟨hr, ?_, fun h => .inl (he h)⟩
  intro front read rest h
  cases front <;> cases h

theorem asked_advance (ended : Bool) (text : List Char) (line : Nat) (reads : List Read) :
    ∃ asked, AskedLate { text, line, reads, ended } (advance ended text line reads).2 asked := by
  fun_induction advance ended text line reads with
  | case1 => exact ⟨[], asked_nothing rfl id⟩
  | case2 => exact ⟨[], asked_nothing rfl id⟩
  | case3 text line hn =>
    refine ⟨[], rfl, ?_, fun _ => .inr (isSpent_nil rfl (blank_of_next? hn))⟩
    intro front read rest h
    cases front <;> cases h
  | case4 text line message reads hn =>
    refine ⟨[.failure message], rfl, ?_, .inl⟩
    rintro (_ | ⟨_, _ | _⟩) read rest h
    · exact isSpent_nil rfl (blank_of_next? hn)
    · cases h
    · cases h
  | case5 text line next reads hn ih =>
    have hblank := blank_of_next? hn
    obtain ⟨asked, hreads, hspent, hended⟩ := ih
    refine ⟨.line next :: asked, congrArg (Read.line next :: ·) hreads, ?_, ?_⟩
    · rintro (_ | ⟨first, front⟩) read rest h
      · exact isSpent_nil rfl hblank
      · obtain ⟨rfl, hrest⟩ := List.cons.inj h
        exact isSpent_cons hblank (hspent front read rest hrest)
    · intro he
      rcases hended he with he | hs
      · exact .inl he
      · exact .inr (isSpent_cons hblank hs)

theorem asked_late (s : Scanner) : ∃ asked, AskedLate s s.next.2 asked := by
  unfold next
  split
  · exact ⟨[], asked_nothing rfl id⟩
  · rename_i hh
    obtain ⟨asked, hreads, hspent, hended⟩ := asked_advance s.ended s.text s.line s.reads
    refine ⟨asked, hreads, ?_, ?_⟩
    · intro front read rest h
      exact ⟨hh, (hspent front read rest h).2⟩
    · intro he
      rcases hended he with he | hs
      · exact .inl he
      · exact .inr ⟨hh, hs.2⟩

end Scanner

/-! ## Steps -/

namespace Session

/-- What can be asked of a session, step by step. -/
inductive Request where
  | token
  | putBack (t : Token)
  | skipPast (c : Char)
  | calculate (level : Calculation.Level)
  | statement
  | nextValue
  | run
  deriving DecidableEq

inductive Answer where
  | token (r : Except Failure Token)
  | done (r : Except Failure Unit)
  | value (r : Except Failure Binary64)
  | nextValue (r : Except Failure (Option Binary64))
  | ending (e : Ending)
  deriving DecidableEq

/-- A step at the scanner of a session. -/
def throughScanner {α : Type} (f : Scanner → α × Scanner) (s : Session) : α × Session :=
  ((f s.desk.scanner).1, { s with desk.scanner := (f s.desk.scanner).2 })

def throughDesk {α : Type} (f : Desk → α × Desk) (s : Session) : α × Session :=
  ((f s.desk).1, { s with desk := (f s.desk).2 })

def respond (s : Session) : Request → Answer × Session
  | .token => (throughScanner Scanner.next s).map .token id
  | .putBack t => (throughScanner (Scanner.putBack t) s).map .done id
  | .skipPast c => (throughScanner (Scanner.skipPast c) s).map .done id
  | .calculate level => (throughDesk (Desk.calculate level) s).map .value id
  | .statement => (throughDesk Desk.statement s).map .value id
  | .nextValue => s.nextValue.map .nextValue id
  | .run => s.run.map .ending id

/-- The answers to some requests, each with the session that is left. -/
def history (s : Session) : List Request → List (Answer × Session)
  | [] => []
  | request :: requests => s.respond request :: history (s.respond request).2 requests

theorem thrifty_throughScanner {α : Type} {f : Scanner → α × Scanner} (hf : Thrifty f) : Thrifty (throughScanner f) :=
  (Thrifty.desk fun _ => hf).session

theorem thrifty_respond (request : Request) : Thrifty fun s => respond s request := by
  cases request with
  | token => exact (thrifty_throughScanner thrifty_next).map Answer.token
  | putBack t => exact (thrifty_throughScanner (thrifty_putBack t)).map Answer.done
  | skipPast c => exact (thrifty_throughScanner (thrifty_skipPast c)).map Answer.done
  | calculate level => exact (Desk.thrifty_calculate level).session.map Answer.value
  | statement => exact Desk.thrifty_statement.session.map Answer.value
  | nextValue => exact thrifty_nextValue.map Answer.nextValue
  | run => exact thrifty_run.map Answer.ending

/-- The same answers, with more to read behind the sessions that are left. -/
def extended (reads : List Read) (answers : List (Answer × Session)) : List (Answer × Session) :=
  answers.map fun a => (a.1, a.2.feed reads)

/-- If steps spare what stands behind, they come to the same with anything behind. -/
theorem history_feed {s : Session} (hs : s.isStarved = false) {back : List Read} {requests : List Request}
    (h : ∀ a ∈ (s.feed back).history requests, Spares back a.2) :
    (∀ a ∈ s.history requests, a.2.isStarved = false) ∧
      ∀ other, (s.feed other).history requests = extended other (s.history requests) := by
  induction requests generalizing s with
  | nil =>
    rw [history]
    exact ⟨List.forall_mem_nil _, fun _ => rfl⟩
  | cons request requests ih =>
    rw [history] at h ⊢
    obtain ⟨hfirst, hrest⟩ := List.forall_mem_cons.mp h
    obtain ⟨hend, hall⟩ := (thrifty_respond request).alike s back hs hfirst
    have hall : ∀ other, (s.feed other).respond request = ((s.respond request).1, (s.respond request).2.feed other) := hall
    rw [hall] at hrest
    obtain ⟨hends, hsame⟩ := ih hend hrest
    refine ⟨List.forall_mem_cons.mpr ⟨hend, hends⟩, ?_⟩
    intro other
    rw [history, hall, hsame]
    rfl

end Session

/-! ## The end of the source -/

namespace Scanner

/-- Behind the end of the source nothing is left but the end itself. -/
def Sound (s : Scanner) : Prop :=
  s.ended = true → s.text = [] ∧ s.reads = [] ∧ (s.held = none ∨ s.held = some .endOfInput)

theorem sound_of_unended {s : Scanner} (h : s.ended = false) : s.Sound := by
  intro he
  rw [h] at he
  cases he

theorem ended_of_advance {ended : Bool} {text : List Char} {line : Nat} {reads : List Read}
    (h : ended = true → text = [] ∧ reads = []) (he : (advance ended text line reads).2.ended = true) :
    (advance ended text line reads).1 = .ok .endOfInput ∧ (advance ended text line reads).2.text = [] ∧
      (advance ended text line reads).2.reads = [] := by
  fun_induction advance ended text line reads with
  | case1 text line reads t rest hn =>
    obtain ⟨rfl, -⟩ := h he
    cases hn
  | case2 text line reads c rest hn =>
    obtain ⟨rfl, -⟩ := h he
    cases hn
  | case3 => exact ⟨rfl, rfl, rfl⟩
  | case4 text line message reads hn =>
    obtain ⟨-, hr⟩ := h he
    cases hr
  | case5 text line next reads hn ih =>
    refine ih ?_ he
    intro hended
    obtain ⟨-, hr⟩ := h hended
    cases hr

/-- A token other than the end of the input leaves more to come. -/
theorem sound_next {s : Scanner} (h : s.Sound) :
    s.next.2.Sound ∧ ∀ t, s.next.1 = .ok t → s.next.2.ended = true → t = .endOfInput := by
  have hheld := held_next s
  rcases hh : s.held with _ | t
  · have hself : s.next = advance s.ended s.text s.line s.reads := by simp only [next, hh]
    have hend (he : (advance s.ended s.text s.line s.reads).2.ended = true) :=
      ended_of_advance (fun hs => ⟨(h hs).1, (h hs).2.1⟩) he
    rw [hself] at hheld ⊢
    refine ⟨fun he => ⟨(hend he).2.1, (hend he).2.2, .inl hheld⟩, ?_⟩
    intro t ht he
    rw [(hend he).1] at ht
    exact (Except.ok.inj ht).symm
  · have hself : s.next = (.ok t, { s with held := none }) := by simp only [next, hh]
    rw [hself]
    refine ⟨fun he => ⟨(h he).1, (h he).2.1, .inl rfl⟩, ?_⟩
    intro u hu he
    obtain rfl := Except.ok.inj hu
    rcases (h he).2.2 with hnone | hsome
    · rw [hh] at hnone
      cases hnone
    · exact Option.some.inj (hh.symm.trans hsome)

theorem sound_hold {s : Scanner} (h : s.Sound) {t : Token} (ht : s.ended = true → t = .endOfInput) :
    ({ s with held := some t } : Scanner).Sound := by
  intro he
  refine ⟨(h he).1, (h he).2.1, .inr ?_⟩
  rw [ht he]

theorem ended_of_seek {c : Char} {ended : Bool} {text : List Char} {line : Nat} {reads : List Read}
    (h : ended = true → text = [] ∧ reads = []) : (seek c ended text line reads).2.Sound := by
  fun_induction seek c ended text line reads with
  | case1 text line reads d rest hn =>
    intro he
    obtain ⟨rfl, -⟩ := h he
    cases hn
  | case2 => exact fun _ => ⟨rfl, rfl, .inl rfl⟩
  | case3 text line message reads hn =>
    intro he
    obtain ⟨-, hr⟩ := h he
    cases hr
  | case4 text line next reads hn ih =>
    refine ih ?_
    intro hended
    obtain ⟨-, hr⟩ := h hended
    cases hr

theorem sound_skipPast (c : Char) {s : Scanner} (h : s.Sound) : (s.skipPast c).2.Sound := by
  by_cases hh : HoldsDelimiter c s.held
  · rw [skipPast_of_holds hh]
    exact fun he => ⟨(h he).1, (h he).2.1, .inl rfl⟩
  · rw [skipPast_of_not_holds hh]
    exact ended_of_seek fun he => ⟨(h he).1, (h he).2.1⟩

end Scanner

section

variable {b : Bindings} {level : Calculation.Level} {origin p : Phase} {first s : Scanner} {w : List Token}

theorem Reached.sound (h : Reached b level origin first w p s) (hf : first.Sound) : s.Sound := by
  induction h with
  | none => exact hf
  | more _ read _ ih =>
    have hn := (sound_next ih).1
    rwa [read] at hn

theorem Ended.sound {a : Except Failure Binary64 × Scanner} (h : Ended b level origin first a) (hf : first.Sound) :
    a.2.Sound := by
  cases h with
  | @failed w p s after f h read =>
    have hn := (sound_next (h.sound hf)).1
    rwa [read] at hn
  | @stopped w p s after t result left h read _ =>
    obtain ⟨hn, ht⟩ := sound_next (h.sound hf)
    have hheld := held_next s
    rw [read] at hn ht hheld
    cases left with
    | false =>
      rw [Calculation.finish_used]
      exact hn
    | true =>
      rw [Calculation.finish_left hheld]
      exact sound_hold hn (ht t rfl)

end

namespace Desk

theorem sound_firstToken {s : Scanner} (h : s.Sound) :
    (firstToken s).2.Sound ∧ ∀ t, (firstToken s).1 = .ok t → (firstToken s).2.ended = true → t = .endOfInput := by
  fun_induction firstToken s with
  | case1 s f after hn =>
    have hs := sound_next h
    rwa [hn] at hs
  | case2 s after hn ih =>
    have hs := (sound_next h).1
    rw [hn] at hs
    exact ih hs
  | case3 s t after hn _ =>
    have hs := sound_next h
    rwa [hn] at hs

theorem sound_nextValue {d : Desk} (h : d.scanner.Sound) : d.nextValue.2.scanner.Sound := by
  obtain ⟨hs, ht⟩ := sound_firstToken h
  rcases hf : firstToken d.scanner with ⟨f | t, s⟩
  · rw [nextValue_of_error hf]
    rwa [hf] at hs
  rw [hf] at hs ht
  by_cases hq : t = .keyword .exit ∨ t = .endOfInput
  · rw [nextValue_of_end hf hq]
    exact hs
  · rw [nextValue_of_token hf hq]
    exact (ended_statement { d with scanner := { s with held := some t } }).sound (sound_hold hs (ht t rfl))

end Desk

namespace Session

theorem sound_turn {s : Session} (h : s.desk.scanner.Sound) : s.turn.2.desk.scanner.Sound := by
  have hn : s.nextValue.2.desk.scanner.Sound := Desk.sound_nextValue h
  rw [turn]
  rcases hv : s.nextValue with ⟨f | _ | v, after⟩
  · rw [hv] at hn
    dsimp only
    split
    · rw [recover]
      split
      · exact hn
      · exact sound_skipPast _ hn
    · exact hn
  · rw [hv] at hn
    exact hn
  · rw [hv] at hn
    dsimp only
    rw [desk_printValue]
    exact hn

/-- A run ends with an exit: one of the desks that it asks reads it. -/
def Exits (s : Session) : Prop := ∃ d ∈ s.asked, (Desk.firstToken d.scanner).1 = .ok (.keyword .exit)

instance (s : Session) : Decidable s.Exits :=
  inferInstanceAs (Decidable (∃ d ∈ s.asked, (Desk.firstToken d.scanner).1 = .ok (.keyword .exit)))

theorem turn_of_exit {s : Session} (h : (Desk.firstToken s.desk.scanner).1 = .ok (.keyword .exit)) :
    s.turn = (some s.close, { s with desk.scanner := (Desk.firstToken s.desk.scanner).2 }) := by
  rw [turn, nextValue, Desk.nextValue_of_end (Prod.ext h rfl) (.inl rfl)]
  rfl

/-- An exit needs no more than its own line. -/
theorem unended_of_exits {s : Session} (hs : s.desk.scanner.Sound) (h : s.Exits) : s.run.2.isStarved = false := by
  fun_induction run s with
  | case1 s ending after hn =>
    obtain ⟨d, hd, hexit⟩ := h
    rw [asked_of_end (congrArg Prod.fst hn)] at hd
    obtain rfl := List.mem_singleton.mp hd
    rw [turn_of_exit hexit] at hn
    cases hn
    rcases hended : (Desk.firstToken s.desk.scanner).2.ended with _ | _
    · exact hended
    · cases (Desk.sound_firstToken hs).2 _ hexit hended
  | case2 s after hn ih =>
    have hafter := sound_turn hs
    rw [hn] at hafter
    refine ih hafter ?_
    obtain ⟨d, hd, hexit⟩ := h
    rw [asked_of_goes (congrArg Prod.fst hn), hn] at hd
    rcases List.mem_cons.mp hd with rfl | hd
    · rw [turn_of_exit hexit] at hn
      cases hn
    · exact ⟨d, hd, hexit⟩

/-! ## Sources -/

theorem ofPieces_append {p : List Piece} (hp : Source.Complete p) (r : List Piece) :
    Scanner.ofPieces (p ++ r) = (Scanner.ofPieces p).feed (Source.reads r) := by
  simp only [Scanner.ofPieces, Scanner.feed, Source.reads_append hp]

theorem spares_of_mem_extended {answers : List (Answer × Session)} (h : ∀ a ∈ answers, a.2.isStarved = false)
    (reads : List Read) : ∀ a ∈ extended reads answers, Spares reads a.2 := by
  intro a ha
  obtain ⟨before, hb, rfl⟩ := List.mem_map.mp ha
  exact ⟨h before hb, before.2.desk.scanner.reads, rfl⟩

/-- Behind complete lines `p` anything may stand. If some steps over `p` and `r₁` ask for nothing of
    `r₁`, they come to the same over `p` and `r₂` as over `p` alone: answers, outputs, variables, and
    the numbers of lines. Of `r₂` nothing is asked for either, nor the end of the source. A token asks
    for a line, or for the end, only when what is left of the line before is blank. And if a run ends
    with an exit, what it has left unread, up to the end of the source, may be anything. -/
theorem read_on_demand {p : List Piece} (hp : Source.Complete p) (b : Bindings) (precision : Nat) (out err : Sink) :
    let start (r : List Piece) : Session := { desk := ⟨.ofPieces (p ++ r), b⟩, precision, out, err }
    (∀ requests r₁, (∀ a ∈ (start r₁).history requests, Spares (Source.reads r₁) a.2) → ∀ r₂,
      (start r₂).history requests = extended (Source.reads r₂) ((start []).history requests) ∧
        ∀ a ∈ (start r₂).history requests, Spares (Source.reads r₂) a.2) ∧
    (∀ s : Scanner, ∃ asked, s.AskedLate s.next.2 asked) ∧
    ∀ (s : Session) (rest : List Read), s.isStarved = false → (s.feed rest).Exits →
      (s.feed rest).run.2.desk.scanner.reads = rest →
        s.run.2.isStarved = false ∧ s.run.2.desk.scanner.reads = [] ∧
          ∀ other, (s.feed other).run = (s.run.1, s.run.2.feed other) := by
  intro start
  have hstart : ∀ r, start r = (start []).feed (Source.reads r) := by
    intro r
    show ({ desk := ⟨.ofPieces (p ++ r), b⟩, precision, out, err } : Session) =
      { desk := ⟨(Scanner.ofPieces (p ++ [])).feed (Source.reads r), b⟩, precision, out, err }
    rw [List.append_nil, ofPieces_append hp]
  refine ⟨?_, asked_late, ?_⟩
  · intro requests r₁ h r₂
    rw [hstart r₁] at h
    obtain ⟨hends, hall⟩ := history_feed (s := start []) rfl h
    rw [hstart r₂, hall]
    exact ⟨rfl, spares_of_mem_extended hends _⟩
  · intro s rest hs hexits hrest
    have hunended := unended_of_exits (s := s.feed rest) (sound_of_unended hs) hexits
    have hbehind : rest <:+ (s.feed rest).run.2.desk.scanner.reads := ⟨[], hrest.symm⟩
    obtain ⟨hend, hall⟩ := thrifty_run.alike s rest hs ⟨hunended, hbehind⟩
    have hall : ∀ other, (s.feed other).run = (s.run.1, s.run.2.feed other) := hall
    refine ⟨hend, ?_, hall⟩
    rw [hall rest] at hrest
    exact List.append_left_eq_self.mp hrest

/-- A statement, its equals sign, a stray character and an exit. What stands behind is never read,
    neither a read that would fail nor lines. -/
theorem read_on_demand_unplugged :
    let p := Source.ofString "1 + 1 =\n2 $ 3 =\nexit\n"
    let r := Source.ofString "2 + 2 =\n$$$\n"
    let s := Session.ofPieces p
    let requests := [.nextValue, .token, .putBack (.symbol .equals), .skipPast '=', .run]
    (Session.ofPieces (p ++ r)).history requests = extended (Source.reads r) (s.history requests) ∧
      (s.feed (Source.reads r)).run = (.finished, s.run.2.feed (Source.reads r)) ∧
        s.run.2.out.text = "=2\n" ∧ s.run.2.err.text = "Error on line 2: Bad token '$'.\n" := by
  intro p r s requests
  obtain ⟨hsteps, -, hexit⟩ := read_on_demand (p := p) (by decide +kernel) .constants defaultPrecision {} {}
  obtain ⟨hhistory, -⟩ := hsteps requests [.failure "unplugged"] (by decide +kernel) r
  obtain ⟨-, -, hrun⟩ := hexit s [.failure "unplugged"] (by decide +kernel) (by decide +kernel) (by decide +kernel)
  have hended : s.run.1 = .finished := by decide +kernel
  refine ⟨hhistory, ?_, by decide +kernel, by decide +kernel⟩
  rw [hrun, hended]

end Session

end Reckoner
