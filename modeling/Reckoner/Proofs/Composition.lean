/-
  Reckoner.Proofs.Composition — two texts with an equals sign between them.

  Statements have no mark at their end: each is read up to a token that cannot belong to it, which
  the next one begins with. Behind the last statement of a text that token is the end of the input,
  and in a longer text it is the equals sign. Both end every calculation alike, and the equals sign
  is passed over before the next statement. So the values of the first text come first, and then the
  second is evaluated on its own, with the variables that the first has left.

  - `nextValue_meets`: a statement of the first text has the same value in the longer one.
  - `values_meets`: behind all of them the second text is left to read.
  - `evaluate_composed`: the values of both texts, and those of one text repeated.
-/

import Mathlib.Data.List.Basic
import Reckoner.Proofs.Below
import Reckoner.Proofs.StartingOver

namespace Reckoner

/-! ## Up to the equals sign -/

namespace Scanner

/-- `t` has left to read what `s` has, and behind it an equals sign and `rest`, in a source of
    `total` lines. -/
structure Continued (rest : List Char) (total : Nat) (s t : Scanner) : Prop where
  held : t.held = s.held
  notEnded : s.held ≠ some .endOfInput
  left : ∃ text lines, Left text lines s ∧ Left (text ++ ' ' :: '=' :: ' ' :: rest) total t

/-- The same; or the end of the input waits to be read again at `s`, and at `t` the equals sign. -/
inductive Meets (rest : List Char) (total : Nat) (s t : Scanner) : Prop
  | within (h : Continued rest total s t)
  | parted (hs : s.held = some .endOfInput) (ht : t.held = some (.symbol .equals)) (left : Left (' ' :: rest) total t)

variable {rest : List Char} {total : Nat} {s t : Scanner}

theorem Continued.unbroken (h : Continued rest total s t) : s.Unbroken ∧ t.Unbroken := by
  obtain ⟨-, -, text, lines, hs, ht⟩ := h
  exact ⟨hs.unbroken, ht.unbroken⟩

theorem Continued.hold (h : Continued rest total s t) {held : Option Token} (hheld : held ≠ some .endOfInput) :
    Continued rest total { s with held } { t with held } := by
  obtain ⟨-, -, text, lines, hs, ht⟩ := h
  exact ⟨rfl, hheld, text, lines, hs.forget held, ht.forget held⟩

/-- The end of the input is no lexeme of the first text. -/
theorem Continued.ne_endOfInput (h : Continued rest total s t) {l : Lexeme} (hl : l ∈ s.lexemes) :
    l ≠ .token .endOfInput := by
  obtain ⟨-, hne, text, lines, hs, -⟩ := h
  rw [hs.lexemes, List.mem_append, List.mem_map] at hl
  rcases hl with ⟨u, hu, rfl⟩ | hl
  · rintro he
    rw [Option.mem_toList, Lexeme.token.inj he] at hu
    exact hne hu
  · exact Lexeme.ne_endOfInput_of_mem_all hl

theorem all_equals (rest : List Char) :
    Lexeme.all ('=' :: ' ' :: rest) = .token (.symbol .equals) :: Lexeme.all rest := by
  have hmark : Lexeme.all ['='] = [.token (.symbol .equals)] := by decide +kernel
  have happend := Lexeme.all_append_blank (c := ' ') (by decide) ['='] rest
  rwa [hmark] at happend

theorem next?_of_all {text : List Char} (h : Lexeme.all text = []) : Lexeme.next? text = none := by
  rcases hn : Lexeme.next? text with _ | ⟨l, behind⟩
  · rfl
  · rw [Lexeme.all_of_some hn] at h
    cases h

theorem Continued.lexemes (h : Continued rest total s t) :
    t.lexemes = s.lexemes ++ .token (.symbol .equals) :: Lexeme.all rest := by
  obtain ⟨hheld, hne, text, lines, hs, ht⟩ := h
  rw [hs.lexemes, ht.lexemes, hheld, Lexeme.all_append_blank (by decide), all_equals, List.append_assoc]

/-- Before the end of the first text both read on. -/
theorem Continued.next (h : Continued rest total s t) (hl : s.lexemes ≠ []) : Continued rest total s.next.2 t.next.2 := by
  obtain ⟨hheld, hne, text, lines, hs, ht⟩ := h
  rcases hh : s.held with _ | u
  · rw [hh] at hheld
    rcases hn : Lexeme.next? text with _ | ⟨l, behind⟩
    · rw [hs.lexemes, hh, Lexeme.all_of_none hn] at hl
      exact absurd rfl hl
    · have hn' := Lexeme.next?_append_blank (c := ' ') (by decide) text ('=' :: ' ' :: rest)
      rw [hn] at hn'
      obtain ⟨-, hleft, -⟩ := hs.next_of_some hh hn
      obtain ⟨-, hleft', -⟩ := ht.next_of_some hheld hn'
      refine ⟨(held_next t).trans (held_next s).symm, ?_, behind, lines, hleft, hleft'⟩
      rw [held_next]
      exact (Option.some_ne_none _).symm
  · rw [Scanner.next, Scanner.next, hheld, hh]
    exact ⟨rfl, (Option.some_ne_none _).symm, text, lines, hs.forget none, ht.forget none⟩

/-- Where the first text ends the equals sign is read, and the second text is left. -/
theorem Continued.joint (h : Continued rest total s t) (hl : s.lexemes = []) :
    t.next = (.ok (.symbol .equals), t.next.2) ∧ Left (' ' :: rest) total t.next.2 := by
  obtain ⟨hheld, hne, text, lines, hs, ht⟩ := h
  rw [hs.lexemes, List.append_eq_nil_iff, List.map_eq_nil_iff, Option.toList_eq_nil_iff] at hl
  rw [hl.1] at hheld
  have hn : Lexeme.next? (text ++ ' ' :: '=' :: ' ' :: rest) = some (.token (.symbol .equals), ' ' :: rest) := by
    rw [Lexeme.next?_append_blank (by decide), next?_of_all hl.2]
    rfl
  obtain ⟨ha, hleft, -⟩ := ht.next_of_some hheld hn
  exact ⟨Prod.ext ha rfl, hleft⟩

theorem Continued.after (h : Continued rest total s t) {count : Nat} (hc : count ≤ s.lexemes.length) :
    Continued rest total (s.after count) (t.after count) := by
  induction count generalizing s t with
  | zero => exact h
  | succ count ih =>
    have hl : s.lexemes ≠ [] := List.ne_nil_of_length_pos (by omega)
    refine ih (h.next hl) ?_
    rw [lexemes_next h.unbroken.1, List.length_tail]
    omega

/-- Behind lexemes of the first text both put the token back that they have come to. -/
theorem Continued.behind (h : Continued rest total s t) {count : Nat} (hc : count ≤ s.lexemes.length)
    {ls : List Lexeme} (hl : s.lexemes.drop count = ls) :
    Meets rest total { s.after (count + 1) with held := front? ls }
      { t.after (count + 1) with held := front? (ls ++ .token (.symbol .equals) :: Lexeme.all rest) } := by
  have hafter := h.after hc
  have hls : (s.after count).lexemes = ls := (Desk.lexemes_after h.unbroken.1 count).trans hl
  rw [after_succ, after_succ]
  cases ls with
  | nil => exact .parted rfl rfl ((hafter.joint hls).2.forget _)
  | cons l ls =>
    have hne : (s.after count).lexemes ≠ [] := by
      rw [hls]
      exact List.cons_ne_nil l ls
    have hfront : front? (l :: ls ++ .token (.symbol .equals) :: Lexeme.all rest) = front? (l :: ls) := by
      cases l <;> rfl
    have hend : front? (l :: ls) ≠ some .endOfInput := by
      have hl := hafter.ne_endOfInput (l := l) (by rw [hls]; exact List.mem_cons_self)
      cases l with
      | token u => exact fun he => hl (congrArg Lexeme.token (Option.some.inj he))
      | stray c => exact (Option.some_ne_none _).symm
    rw [hfront]
    exact .within ((hafter.next hne).hold hend)

variable {s' : Scanner} {u : Token}

/-- A token of the first text is the next one of both. -/
theorem Meets.token (h : Meets rest total s t) (hn : s.next = (.ok u, s')) (hu : u ≠ .endOfInput) :
    ∃ t', t.next = (.ok u, t') ∧ Continued rest total s' t' := by
  cases h with
  | within h =>
    have hl := lexemes_of_next h.unbroken.1 (congrArg Prod.fst hn) hu
    have hnext := h.next (by rw [hl]; exact List.cons_ne_nil _ _)
    have ht := Desk.next_of_lexemes h.unbroken.2 (h.lexemes.trans (congrArg (· ++ _) hl))
    rw [hn] at hnext
    exact ⟨_, ht.1, hnext⟩
  | parted hheld =>
    rw [Scanner.next, hheld] at hn
    cases hn
    exact absurd rfl hu

/-- Where the first text has ended the other has its equals sign. -/
theorem Meets.joint (h : Meets rest total s t) (hn : s.next.1 = .ok .endOfInput) :
    ∃ t', t.next = (.ok (.symbol .equals), t') ∧ t'.held = none ∧ Left (' ' :: rest) total t' := by
  cases h with
  | within h =>
    have hl : s.lexemes = [] := by
      have hfront := (next_eq_ok_iff h.unbroken.1).mp hn
      rcases hl : s.lexemes with _ | ⟨l, ls⟩
      · rfl
      · rw [hl] at hfront
        have hne := h.ne_endOfInput (l := l) (by rw [hl]; exact List.mem_cons_self)
        cases l with
        | token u => exact absurd (congrArg Lexeme.token (Option.some.inj hfront)) hne
        | stray c => cases hfront
    obtain ⟨ht, hleft⟩ := h.joint hl
    exact ⟨_, ht, held_next t, hleft⟩
  | parted hheld hheld' left => exact ⟨{ t with held := none }, by rw [Scanner.next, hheld'], rfl, left.forget none⟩

end Scanner

/-! ## Statements of the first text -/

namespace Desk

open Scanner Grammar

variable {rest : List Char} {total : Nat} {s s' t : Scanner} {b b' : Bindings} {u : Token}

/-- A statement begins with the same token. -/
theorem firstToken_meets (h : Meets rest total s t) (hn : firstToken s = (.ok u, s')) (hu : u ≠ .endOfInput) :
    ∃ t', firstToken t = (.ok u, t') ∧ Continued rest total s' t' := by
  fun_induction firstToken s generalizing t with
  | case1 s f after hs => cases hn
  | case2 s after hs ih =>
    obtain ⟨t', ht, hcontinued⟩ := h.token hs (by decide)
    rw [firstToken_of_token ht, if_pos rfl]
    exact ih (.within hcontinued) hn
  | case3 s w after hs hw =>
    cases hn
    obtain ⟨t', ht, hcontinued⟩ := h.token hs hu
    rw [firstToken_of_token ht, if_neg hw]
    exact ⟨t', rfl, hcontinued⟩

/-- Where no statement follows, the equals sign is passed over and the second text is left. -/
theorem firstToken_joint (h : Meets rest total s t) (hn : (firstToken s).1 = .ok .endOfInput) :
    ∃ t', firstToken t = firstToken t' ∧ t'.held = none ∧ Left (' ' :: rest) total t' := by
  fun_induction firstToken s generalizing t with
  | case1 s f after hs => cases hn
  | case2 s after hs ih =>
    obtain ⟨t', ht, hcontinued⟩ := h.token hs (by decide)
    rw [firstToken_of_token ht, if_pos rfl]
    exact ih (.within hcontinued) hn
  | case3 s w after hs hw =>
    obtain rfl : w = .endOfInput := Except.ok.inj hn
    obtain ⟨t', ht, hheld, hleft⟩ := h.joint (congrArg Prod.fst hs)
    rw [firstToken_of_token ht, if_pos rfl]
    exact ⟨t', rfl, hheld, hleft⟩

/-- A statement that has a value is derived in the longer text too: an equals sign does not go on
    with it. -/
theorem Derives.continued {tree : Statement} {ls : List Lexeme} {v : Binary64} (h : Continued rest total s t)
    (hd : Derives ⟨s, b⟩ tree ls v) :
    Derives ⟨t, b⟩ tree (ls ++ .token (.symbol .equals) :: Lexeme.all rest) v := by
  obtain ⟨hl, ⟨w, hw, hop⟩, hv, hfresh⟩ := hd
  have hl : s.lexemes = tree.yield.map .token ++ ls := hl
  refine ⟨?_, ?_, hv, hfresh⟩
  · show t.lexemes = _
    rw [h.lexemes, hl, List.append_assoc]
  · match ls, hw with
    | [], _ => exact ⟨.symbol .equals, rfl, by decide⟩
    | .token w' :: ls, hw => exact ⟨w, hw, hop⟩

/-- A statement of the first text has the same value in the longer one. -/
theorem statement_meets (h : Continued rest total s t) {v : Binary64} {after : Desk}
    (hs : statement ⟨s, b⟩ = (.ok v, after)) :
    ∃ t', statement ⟨t, b⟩ = (.ok v, ⟨t', after.bindings⟩) ∧ Meets rest total after.scanner t' := by
  obtain ⟨tree, ls, hd⟩ := derives_of_statement (d := ⟨s, b⟩) h.unbroken.1 (congrArg Prod.fst hs)
  have hl : s.lexemes = tree.yield.map .token ++ ls := hd.lexemes
  have hcount : tree.yield.length ≤ s.lexemes.length := by
    rw [hl, List.length_append, List.length_map]
    exact Nat.le_add_right _ _
  rw [statement_of_derives (d := ⟨s, b⟩) h.unbroken.1 hd] at hs
  rw [statement_of_derives (d := ⟨t, b⟩) h.unbroken.2 (hd.continued h)]
  cases hs
  refine ⟨_, rfl, h.behind hcount ?_⟩
  rw [hl, List.drop_left' (List.length_map _)]

theorem nextValue_meets (h : Meets rest total s t) {v : Binary64} {after : Desk}
    (hn : nextValue ⟨s, b⟩ = (.ok (some v), after)) :
    ∃ t', nextValue ⟨t, b⟩ = (.ok (some v), ⟨t', after.bindings⟩) ∧ Meets rest total after.scanner t' := by
  rcases hf : firstToken s with ⟨f | u, s'⟩
  · rw [nextValue_of_error (d := ⟨s, b⟩) hf] at hn
    cases hn
  by_cases hq : u = .keyword .exit ∨ u = .endOfInput
  · rw [nextValue_of_end (d := ⟨s, b⟩) hf hq] at hn
    cases hn
  have hu : u ≠ .endOfInput := fun he => hq (.inr he)
  have hheld : some u ≠ some .endOfInput := fun he => hu (Option.some.inj he)
  obtain ⟨t', hf', hcontinued⟩ := firstToken_meets h hf hu
  rw [nextValue_of_token (d := ⟨s, b⟩) hf hq] at hn
  rcases hs : statement ⟨{ s' with held := some u }, b⟩ with ⟨f | w, rest'⟩
  · rw [hs] at hn
    cases hn
  · rw [hs] at hn
    cases hn
    obtain ⟨q, hq', hmeets⟩ := statement_meets (hcontinued.hold hheld) hs
    refine ⟨q, ?_, hmeets⟩
    rw [nextValue_of_token (d := ⟨t, b⟩) hf' hq, hq']
    rfl

/-- What was read before the first token of a statement makes no difference. -/
theorem values_of_firstToken (h : firstToken s = firstToken t) : values ⟨s, b⟩ = values ⟨t, b⟩ := by
  rw [values_eq, values_eq, nextValue, nextValue, h]

/-- Behind all statements of the first text the second is left to read, with the variables that the
    first has left. -/
theorem values_meets {d : Desk} (h : Meets rest total d.scanner t)
    (hend : (firstToken d.leading.2.scanner).1 = .ok .endOfInput) :
    ∃ t', values ⟨t, d.bindings⟩ = (values ⟨t', d.leading.2.bindings⟩).map (d.leading.1 ++ ·) ∧
      t'.held = none ∧ Left (' ' :: rest) total t' := by
  have hjoint {d : Desk} {t : Scanner} (h : Meets rest total d.scanner t)
      (hend : (firstToken d.scanner).1 = .ok .endOfInput) :
      ∃ t', values ⟨t, d.bindings⟩ = (values ⟨t', d.bindings⟩).map ([] ++ ·) ∧
        t'.held = none ∧ Left (' ' :: rest) total t' := by
    obtain ⟨t', hf, hheld, hleft⟩ := firstToken_joint h hend
    refine ⟨t', ?_, hheld, hleft⟩
    rw [values_of_firstToken hf]
    rcases values _ with f | vs <;> rfl
  fun_induction values d generalizing t with
  | case1 d f after hn =>
    rw [leading_of_error hn] at hend ⊢
    exact hjoint h hend
  | case2 d after hn =>
    rw [leading_of_end hn] at hend ⊢
    exact hjoint h hend
  | case3 d v after hn ih =>
    rw [leading_of_value hn] at hend ⊢
    obtain ⟨t', hn', hmeets⟩ := nextValue_meets h hn
    obtain ⟨t'', hvalues, hheld, hleft⟩ := ih hmeets hend
    refine ⟨t'', ?_, hheld, hleft⟩
    rw [values_of_value hn', hvalues]
    rcases values _ with f | vs <;> rfl

/-! ## The second text -/

/-- The second text is evaluated as it would be alone, but for its lines. -/
theorem values_joined (s₂ : String) {lines : Nat} {t : Scanner} (hheld : t.held = none)
    (hleft : Left (' ' :: s₂.toList) total t)
    (htotal : s₂.toList ≠ [] → total = lineCount s₂.toList + lines) :
    values ⟨t, b⟩ = (values ⟨.ofPieces (Source.ofString s₂), b⟩).mapError (Failure.later lines) := by
  have hsecond := left_ofString s₂
  by_cases he : s₂.toList = []
  · have hl : t.lexemes = [] := by
      rw [hleft.lexemes, hheld, he]
      decide +kernel
    have hl₂ : (Scanner.ofPieces (Source.ofString s₂)).lexemes = [] := by
      rw [lexemes_ofString, he, Lexeme.all_nil]
    have hv : values ⟨t, b⟩ = .ok [] := values_of_nothing ⟨hleft.unbroken, .inl hl⟩
    have hv₂ : values ⟨.ofPieces (Source.ofString s₂), b⟩ = .ok [] := values_of_nothing ⟨hsecond.unbroken, .inl hl₂⟩
    rw [hv, hv₂]
    rfl
  · exact values_below ⟨below_of_left hsecond hleft (htotal he) rfl hheld (by simp [isBlank]), rfl⟩

/-! ## Without declarations -/

/-- The lexemes behind the first token of a statement are among those that were there. -/
theorem lexemes_firstToken (hs : s.Unbroken) (hn : firstToken s = (.ok u, s')) (hu : u ≠ .endOfInput) :
    s'.Unbroken ∧ .token u :: s'.lexemes ⊆ s.lexemes := by
  fun_induction firstToken s with
  | case1 s f after hf => cases hn
  | case2 s after hf ih =>
    have hl := lexemes_of_next hs (congrArg Prod.fst hf) (by decide)
    have hafter := unbroken_next hs
    rw [hf] at hl hafter
    obtain ⟨hs', hsub⟩ := ih hafter hn
    rw [hl]
    exact ⟨hs', List.subset_cons_of_subset _ hsub⟩
  | case3 s w after hf hw =>
    cases hn
    have hl := lexemes_of_next hs (congrArg Prod.fst hf) hu
    have hafter := unbroken_next hs
    rw [hf] at hl hafter
    rw [hl]
    exact ⟨hafter, List.Subset.refl _⟩

/-- No declaration is left to read. -/
structure Undeclared (s : Scanner) : Prop where
  unbroken : s.Unbroken
  free : .token (.keyword .declare) ∉ s.lexemes

theorem undeclared_of_remains {ls : List Lexeme} (h : s.Remains ls) (hl : .token (.keyword .declare) ∉ ls) :
    Undeclared s := by
  refine ⟨h.unbroken, ?_⟩
  rcases h.lexemes with he | ⟨-, he⟩
  · rwa [he]
  · rw [he]
    simp

theorem statement_undeclared {d after : Desk} (h : Undeclared d.scanner) {v : Binary64}
    (hn : d.statement = (.ok v, after)) : after.bindings = d.bindings ∧ Undeclared after.scanner := by
  obtain ⟨tree, ls, hd⟩ := derives_of_statement h.unbroken (congrArg Prod.fst hn)
  have hfree := h.free
  have hl := hd.lexemes
  obtain ⟨w, hw, -⟩ := hd.ends
  rw [statement_of_derives h.unbroken hd] at hn
  cases hn
  rw [hl] at hfree
  cases tree with
  | declaration name e => exact absurd List.mem_cons_self hfree
  | expression e =>
    refine ⟨rfl, undeclared_of_remains ?_ fun hm => hfree (List.mem_append_right _ hm)⟩
    rw [behind, hw]
    refine remains_hold (unbroken_after h.unbroken _) ?_ hw ?_
    · rw [after_succ]
      exact held_next _
    · rw [lexemes_after h.unbroken, hl, ← List.drop_drop, List.drop_left' (List.length_map _), List.drop_one]

theorem nextValue_undeclared {d after : Desk} (h : Undeclared d.scanner) {v : Binary64}
    (hn : d.nextValue = (.ok (some v), after)) : after.bindings = d.bindings ∧ Undeclared after.scanner := by
  rcases hf : firstToken d.scanner with ⟨f | u, s⟩
  · rw [nextValue_of_error hf] at hn
    cases hn
  by_cases hq : u = .keyword .exit ∨ u = .endOfInput
  · rw [nextValue_of_end hf hq] at hn
    cases hn
  obtain ⟨hs, hsub⟩ := lexemes_firstToken h.unbroken hf fun he => hq (.inr he)
  have hheld := held_firstToken d.scanner
  rw [hf] at hheld
  have hback : Undeclared { s with held := some u } := by
    refine ⟨hs, ?_⟩
    rw [lexemes_hold hheld]
    exact fun hm => h.free (hsub hm)
  rw [nextValue_of_token hf hq] at hn
  rcases ha : statement { d with scanner := { s with held := some u } } with ⟨f | w, e⟩
  · rw [ha] at hn
    cases hn
  · rw [ha] at hn
    cases hn
    exact statement_undeclared (d := { d with scanner := { s with held := some u } }) hback ha

/-- Without declarations no variable is bound. -/
theorem leading_undeclared {d : Desk} (h : Undeclared d.scanner) : d.leading.2.bindings = d.bindings := by
  fun_induction values d with
  | case1 d f after hn => rw [leading_of_error hn]
  | case2 d after hn => rw [leading_of_end hn]
  | case3 d v after hn ih =>
    obtain ⟨hb, hafter⟩ := nextValue_undeclared h hn
    rw [leading_of_value hn]
    exact (ih hafter).trans hb

end Desk

/-! ## Whole texts -/

namespace Desk

/-- A desk over a text, with the constants declared. -/
abbrev ofText (text : String) : Desk := .ofPieces (Source.ofString text)

/-- The statements have values up to the end of the input; there is no `exit` before it. -/
def ReadsAll (d : Desk) : Prop := (firstToken d.leading.2.scanner).1 = .ok .endOfInput

instance (d : Desk) : Decidable d.ReadsAll := inferInstanceAs (Decidable ((firstToken _).1 = _))

end Desk

section

variable {s₁ : String} (hend : (Desk.ofText s₁).ReadsAll)
include hend

open Scanner in
/-- The values of a text and, behind an equals sign, of a second one, which is evaluated with the
    variables of the first. -/
theorem evaluate_joined (s₂ : String) :
    evaluate (s₁ ++ " = " ++ s₂) =
      ((Desk.values ⟨.ofPieces (Source.ofString s₂), (Desk.ofText s₁).leading.2.bindings⟩).map
        ((Desk.ofText s₁).leading.1 ++ ·)).mapError (Failure.later (s₁.toList.count '\n')) := by
  have hequals : (" = " : String).toList = [' ', '=', ' '] := by decide
  have htext : (s₁ ++ " = " ++ s₂).toList = s₁.toList ++ ' ' :: '=' :: ' ' :: s₂.toList := by
    rw [String.toList_append, String.toList_append, hequals, List.append_assoc]
    rfl
  have hmeets : Meets s₂.toList (lineCount (s₁ ++ " = " ++ s₂).toList) (Desk.ofText s₁).scanner
      (Desk.ofText (s₁ ++ " = " ++ s₂)).scanner := by
    have hleft := left_ofString (s₁ ++ " = " ++ s₂)
    rw [htext] at hleft ⊢
    exact .within ⟨rfl, (Option.some_ne_none _).symm, s₁.toList, _, left_ofString s₁, hleft⟩
  obtain ⟨t, hvalues, hheld, hleft⟩ := Desk.values_meets hmeets hend
  have hlines : s₂.toList ≠ [] → lineCount (s₁ ++ " = " ++ s₂).toList = lineCount s₂.toList + s₁.toList.count '\n' := by
    intro hne
    rw [String.toList_append, lineCount_append _ hne, String.toList_append, List.count_append, hequals, Nat.add_comm]
    rfl
  refine hvalues.trans ?_
  rw [Desk.values_joined s₂ hheld hleft hlines]
  rcases Desk.values ⟨.ofPieces (Source.ofString s₂), (Desk.ofText s₁).leading.2.bindings⟩ with f | ws <;> rfl

theorem evaluate_repeated (hfree : .token (.keyword .declare) ∉ Lexeme.all s₁.toList) {vs : List Binary64}
    (h : evaluate s₁ = .ok vs) (n : Nat) :
    evaluate (" = ".intercalate (List.replicate n s₁)) = .ok (List.replicate n vs).flatten := by
  have hbindings : (Desk.ofText s₁).leading.2.bindings = .constants := by
    refine Desk.leading_undeclared ⟨Scanner.unbroken_ofString s₁, ?_⟩
    have hlexemes := Scanner.lexemes_ofString s₁
    exact hlexemes ▸ hfree
  have hvalues : (Desk.ofText s₁).leading.1 = vs := Desk.leading_of_ok h
  induction n with
  | zero =>
    show evaluate "" = .ok []
    decide +kernel
  | succ n ih =>
    cases n with
    | zero =>
      rw [List.replicate_one, String.intercalate_singleton, h]
      simp
    | succ n =>
      have hsplit : " = ".intercalate (List.replicate (n + 1 + 1) s₁) =
          s₁ ++ " = " ++ " = ".intercalate (List.replicate (n + 1) s₁) := by
        rw [List.replicate_succ, List.replicate_succ, String.intercalate_cons_cons]
      have hrest : Desk.values ⟨.ofPieces (Source.ofString (" = ".intercalate (List.replicate (n + 1) s₁))), .constants⟩ =
          .ok (List.replicate (n + 1) vs).flatten := ih
      rw [hsplit, evaluate_joined hend, hbindings, hrest, hvalues, List.replicate_succ (n := n + 1), List.flatten_cons]
      rfl

end

/-- A text is read to its end, and has values. Then a text in which an equals sign and a second text
    follow it has these values and those of the second, which is evaluated from the variables that
    the first has left; the second text is mistaken there as it is alone, as many lines further down
    as the first has newlines. A text without declarations may be repeated so any number of times. -/
theorem evaluate_composed {s₁ : String} {vs : List Binary64} (h : evaluate s₁ = .ok vs)
    (hend : (Desk.ofText s₁).ReadsAll) :
    (∀ s₂, evaluate (s₁ ++ " = " ++ s₂) =
      ((Desk.values ⟨.ofPieces (Source.ofString s₂), (Desk.ofText s₁).leading.2.bindings⟩).map
        (vs ++ ·)).mapError (Failure.later (s₁.toList.count '\n'))) ∧
      (.token (.keyword .declare) ∉ Lexeme.all s₁.toList →
        ∀ n, evaluate (" = ".intercalate (List.replicate n s₁)) = .ok (List.replicate n vs).flatten) := by
  constructor
  · intro s₂
    rw [evaluate_joined hend, Desk.leading_of_ok h]
  · intro hfree n
    exact evaluate_repeated hend hfree h n

/-- The variable of the first text is known in the second, and the lines are those of both. -/
theorem evaluate_composed_declared :
    let number (n : Nat) := (⟨n, 0⟩ : Decimal).toBinary64
    evaluate ("let x = 2\n3" ++ " = " ++ "x * 10") = .ok [number 2, number 3, number 20] ∧
      evaluate ("let x = 2\n3" ++ " = " ++ "x\n1 / 0") = .error (.mistake 3 .divisionByZero) ∧
      evaluate (" = ".intercalate (List.replicate 3 "1 2")) =
        .ok [number 1, number 2, number 1, number 2, number 1, number 2] := by
  intro number
  have hfirst : evaluate "let x = 2\n3" = .ok [number 2, number 3] := by decide +kernel
  have hplain : evaluate "1 2" = .ok [number 1, number 2] := by decide +kernel
  obtain ⟨hcomposed, -⟩ := evaluate_composed hfirst (by decide +kernel)
  obtain ⟨-, hrepeated⟩ := evaluate_composed hplain (by decide +kernel)
  refine ⟨(hcomposed "x * 10").trans ?_, (hcomposed "x\n1 / 0").trans ?_, hrepeated ?_ 3⟩ <;> decide +kernel

end Reckoner
