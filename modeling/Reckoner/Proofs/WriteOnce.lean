/-
  Reckoner.Proofs.WriteOnce — a variable is bound once and keeps its value.

  Bindings are only added, behind the constants, each with a name that is not bound yet
  (`Bindings.Grows`); so names stay distinct, and what is found under a name stays what it is.

  - `variables_keep`: this holds of every session, whatever is asked of it, whatever its source
    gives and its sinks do.
-/

import Reckoner.Calculation.Step
import Reckoner.Proofs.Sessions

namespace Reckoner

/-! ## Growing variables -/

namespace Bindings

def names (b : Bindings) : List String := b.toList.map (·.name)

theorem mem_names {b : Bindings} {name : String} : name ∈ b.names ↔ b.isBound name = true := by
  rw [isBound_iff, names, List.mem_map]

theorem nodup_constants : constants.names.Nodup := by
  show ["pi", "e", "k"].Nodup
  decide

/-- What was bound comes first, in the same order and with the same values. -/
theorem Grows.keeps {b c : Bindings} (h : b.Grows c) : b.toList <+: c.toList := by
  induction h with
  | refl => exact List.prefix_rfl
  | bind v _ hn hb ih => exact ih.trans (List.prefix_append _ _)

theorem Grows.nodup {b c : Bindings} (h : b.Grows c) (hb : b.names.Nodup) : c.names.Nodup := by
  induction h with
  | refl => exact hb
  | @bind c name v _ hn hbound ih =>
    have hnew : name ∉ c.names := by
      rw [mem_names, hbound]
      exact nofun
    rw [names, List.map_append, List.map_singleton, List.nodup_append]
    refine ⟨ih, List.pairwise_singleton _ _, ?_⟩
    intro x hx y hy
    obtain rfl := List.mem_singleton.mp hy
    rintro rfl
    exact hnew hx

/-- What was added has names a variable can be given. -/
theorem Grows.declared {b c : Bindings} (h : b.Grows c) :
    ∃ declared, c.toList = b.toList ++ declared ∧ ∀ x ∈ declared, IsVariable x.name := by
  induction h with
  | refl => exact ⟨[], (List.append_nil _).symm, nofun⟩
  | @bind c name v _ hn hb ih =>
    obtain ⟨declared, hc, hd⟩ := ih
    refine ⟨declared ++ [⟨name, v⟩], ?_, ?_⟩
    · rw [hc, List.append_assoc]
    · intro x hx
      rcases List.mem_append.mp hx with hx | hx
      · exact hd x hx
      · obtain rfl := List.mem_singleton.mp hx
        exact hn

theorem lookup_of_prefix {b c : Bindings} (h : b.toList <+: c.toList) {name : String} {v : Binary64}
    (hv : b.lookup name = .ok v) : c.lookup name = .ok v := by
  obtain ⟨rest, hc⟩ := h
  unfold lookup value? at hv ⊢
  rw [← hc, List.find?_append]
  rcases hf : b.toList.find? (·.name == name) with _ | x
  · rw [hf] at hv
    cases hv
  · rw [hf] at hv ⊢
    exact hv

theorem lookup_append {b : Bindings} {name : String} (h : b.isBound name = false) (v : Binary64) :
    lookup ⟨b.toList ++ [⟨name, v⟩]⟩ name = .ok v := by
  have hd : b.declare name v = .ok ⟨b.toList ++ [⟨name, v⟩]⟩ := by
    rw [declare, h]
    rfl
  rw [lookup, value?_declare hd, if_pos rfl]

/-- Wherever an operand or an exponent is due, the name is read as the number `v`. -/
def Means (b : Bindings) (name : String) (v : Binary64) : Prop :=
  b.lookup name = .ok v ∧
    ∀ level, (∀ p outer, Calculation.step b level (.operand p outer) (.name name) =
        Calculation.step b level (.operand p outer) (.number v)) ∧
      ∀ base p outer, Calculation.step b level (.exponent base p outer) (.name name) =
        Calculation.step b level (.exponent base p outer) (.number v)

theorem means_of_lookup {b : Bindings} {name : String} {v : Binary64} (h : b.lookup name = .ok v) :
    b.Means name v := by
  refine ⟨h, fun level => ⟨?_, ?_⟩⟩
  · intro p outer
    simp only [Calculation.step, Calculation.operandStep, h]
  · intro base p outer
    simp only [Calculation.step, Calculation.exponentStep, Production.exponentValue, h]

end Bindings

/-! ## Declarations -/

namespace Desk

/-- The statement to come, behind any equals signs, is a declaration of `name`. -/
def Declares (d : Desk) (name : String) : Prop :=
  (firstToken d.scanner).1 = .ok (.keyword .declare) ∧ (firstToken d.scanner).2.next.1 = .ok (.name name)

theorem ok_of_map_some {α : Type} {x : Except Failure α} {v : α} (h : x.map some = .ok (some v)) : x = .ok v := by
  cases x with
  | error f => cases h
  | ok w =>
    obtain rfl := Option.some.inj (Except.ok.inj h)
    rfl

theorem bindings_bindTo {d : Desk} {name : String} {v : Binary64} (h : (d.bindTo name).1 = .ok v) :
    d.bindings.isBound name = false ∧ (d.bindTo name).2.bindings = ⟨d.bindings.toList ++ [⟨name, v⟩]⟩ := by
  rcases hc : d.calculate .expression with ⟨f | w, after⟩
  · rw [bindTo_of_error hc] at h
    cases h
  · rw [bindTo_of_ok hc] at h ⊢
    rcases hb : d.bindings.isBound name with _ | _
    · rw [hb] at h
      obtain rfl := Except.ok.inj h
      exact ⟨rfl, rfl⟩
    · rw [hb] at h
      cases h

/-- A declaration that has a value binds its name to it, for the first time. -/
theorem bindings_of_declares {d : Desk} {name : String} (hd : d.Declares name) {v : Binary64}
    (h : d.nextValue.1 = .ok (some v)) :
    d.bindings.isBound name = false ∧ d.nextValue.2.bindings = ⟨d.bindings.toList ++ [⟨name, v⟩]⟩ := by
  obtain ⟨hfirst, hname⟩ := hd
  rcases hf : firstToken d.scanner with ⟨first, s⟩
  rw [hf] at hfirst hname
  obtain rfl : first = .ok (.keyword .declare) := hfirst
  have hq : ¬ (Token.keyword .declare = .keyword .exit ∨ Token.keyword .declare = .endOfInput) := by decide
  have hheld : s.held = none := by
    have hheld := held_firstToken d.scanner
    rwa [hf] at hheld
  have hback : ({ s with held := some (.keyword .declare) } : Scanner).next = (.ok (.keyword .declare), s) :=
    Scanner.next_hold hheld _
  rw [nextValue_of_token hf hq, statement_of_declare hback] at h ⊢
  have hok : (declaration { d with scanner := s }).1 = .ok v := ok_of_map_some h
  obtain ⟨name', s₁, s₂, hn, hn'⟩ := declaration_of_ok hok
  have hname : s.next.1 = .ok (.name name) := hname
  have hn : s.next = (.ok (.name name'), s₁) := hn
  rw [hn] at hname
  obtain rfl := Token.name.inj (Except.ok.inj hname)
  rw [declaration_of_name (d := { d with scanner := s }) hn hn'] at hok ⊢
  exact bindings_bindTo (d := { d with scanner := s₂ }) hok

end Desk

/-! ## Sessions -/

theorem ok_of_toOption {α : Type} {x : Except Failure α} {v : α} (h : x.toOption = some v) : x = .ok v := by
  cases x with
  | error f => cases h
  | ok w =>
    obtain rfl := Option.some.inj h
    rfl

namespace Session

def bindings (s : Session) : Bindings := s.desk.bindings

/-- Any session, whatever was asked of it: its names are distinct, and all but the constants can
    be given to variables. A further call keeps what is bound. The next value, if there is one,
    is bound to one more name or to none; otherwise nothing is. The name of a declaration means
    its value ever after, and so does every name that is bound. -/
theorem variables_keep (pieces : List Piece) (precision : Nat) (out err : Sink) (calls : List Call) :
    let s := (fresh pieces precision out err).performAll calls
    s.bindings.names.Nodup ∧
      (∃ declared, s.bindings.toList = Bindings.constants.toList ++ declared ∧ ∀ x ∈ declared, IsVariable x.name) ∧
      (∀ call, s.bindings.toList <+: (s.perform call).bindings.toList) ∧
      (∀ f, s.nextValue.1 = .error f → s.nextValue.2.bindings = s.bindings) ∧
      (s.nextValue.1 = .ok none → s.nextValue.2.bindings = s.bindings) ∧
      (∀ v, s.nextValue.1 = .ok (some v) →
        s.nextValue.2.bindings = s.bindings ∨
          ∃ name, s.bindings.isBound name = false ∧ s.nextValue.2.bindings = ⟨s.bindings.toList ++ [⟨name, v⟩]⟩) ∧
      (∀ name v, s.desk.Declares name → s.nextValue.1 = .ok (some v) →
        s.nextValue.2.bindings = ⟨s.bindings.toList ++ [⟨name, v⟩]⟩ ∧
          ∀ later, (s.nextValue.2.performAll later).bindings.Means name v) ∧
      ∀ name v, s.bindings.lookup name = .ok v → ∀ later, (s.performAll later).bindings.Means name v := by
  intro s
  have hs : Follows (Source.reads pieces) (fresh pieces precision out err) s :=
    follows_performAll (kept_fresh pieces precision out err) calls
  have hgrows : Bindings.constants.Grows s.bindings := hs.grows
  have hnext := Desk.outcome_nextValue hs.kept
  -- what is found under a name is found after any further calls
  have hkeep : ∀ t : Session, t.desk.scanner.Kept (Source.reads pieces) → ∀ name v, t.bindings.lookup name = .ok v →
      ∀ later, (t.performAll later).bindings.Means name v := by
    intro t ht name v hv later
    have hp := (follows_performAll ht later).grows.keeps
    exact Bindings.means_of_lookup (Bindings.lookup_of_prefix hp hv)
  refine ⟨hgrows.nodup Bindings.nodup_constants, hgrows.declared, ?_, ?_, ?_, ?_, ?_, hkeep s hs.kept⟩
  · intro call
    exact (follows_perform hs.kept call).grows.keeps
  · intro f hf
    exact (hnext.failure f hf).2
  · intro hn
    exact hnext.none hn
  · intro v hv
    rcases hnext.value v hv with he | ⟨name, -, hb, he⟩
    · exact .inl he
    · exact .inr ⟨name, hb, he⟩
  · intro name v hd hv
    obtain ⟨hb, he⟩ := Desk.bindings_of_declares hd hv
    refine ⟨he, hkeep _ (follows_nextValue hs.kept).kept name v ?_⟩
    show s.desk.nextValue.2.bindings.lookup name = .ok v
    rw [he]
    exact Bindings.lookup_append hb v

/-- Behind `let x = 3`, the name means three, though it is declared again as four. -/
theorem variables_keep_twice :
    let s := fresh (Source.ofString "let x = 3 let x = 4") 6 {} {}
    let three := (⟨3, 0⟩ : Decimal).toBinary64
    s.desk.Declares "x" ∧ s.nextValue.1 = .ok (some three) ∧
      ∀ later, (s.nextValue.2.performAll later).bindings.Means "x" three := by
  intro s three
  have hd : s.desk.Declares "x" := by
    constructor <;> exact ok_of_toOption (by decide +kernel)
  have hv : s.nextValue.1 = .ok (some three) := ok_of_toOption (by decide +kernel)
  obtain ⟨-, -, -, -, -, -, hdeclared, -⟩ := variables_keep (Source.ofString "let x = 3 let x = 4") 6 {} {} []
  exact ⟨hd, hv, (hdeclared "x" three hd hv).2⟩

end Session

end Reckoner
