/-
  Reckoner.Proofs.ReadBack — printed values read back as they were.

  A finite value is printed as a literal, behind a minus sign if it has one, and an equals sign in
  front makes a statement of it. At seventeen digits or more the literal is read as the magnitude
  that was printed, zeros and the least numbers included. So the lines of a run are a text of which
  the values are those of the run.

  - `all_printed`: printed values as lexemes.
  - `out_run`: whatever becomes of a run, its output is the lines of the values it has shown.
  - `printed_reads_back`: the values of printed lines, and a session over the output of another one.
-/

import Reckoner.Proofs.Literals
import Reckoner.Proofs.StartingOver

namespace Reckoner

open Grammar

/-! ## One line -/

/-- The statement that is printed of a finite value: its magnitude, behind the sign. -/
def Binary64.spelled : Binary64 → Expression
  | .finite true m => .of (.of (.minus (.number (.finite false m))) .none) .none
  | v => .of (.of (.number v) .none) .none

theorem Binary64.value_spelled (b : Bindings) (v : Binary64) : v.spelled.value b = .ok v := by
  cases v with
  | nan => rfl
  | infinite negative => rfl
  | finite negative m => cases negative <;> rfl

/-- A symbol is a lexeme, whatever stands behind it. -/
theorem Lexeme.all_symbol (d : Symbol) (cs : List Char) : all (d.char :: cs) = .token (.symbol d) :: all cs := by
  have hscan : Literal.scan? (d.char :: cs) = none := by cases d <;> rfl
  have halpha : d.char.isAlpha = false := by cases d <;> rfl
  have hn : next? (d.char :: cs) = some (.token (.symbol d), cs) := by
    rw [next?, List.dropWhile_cons_of_neg (by rw [d.isBlank_char]; exact Bool.false_ne_true)]
    simp only [head, halpha, hscan, d.ofChar?_char, Bool.false_eq_true, if_false]
  exact all_of_some hn

/-- At seventeen digits a magnitude is printed as a literal that is read as it. -/
theorem Magnitude.all_generalText? {precision : Nat} (h : 17 ≤ precision) {m : Magnitude} (hm : m ≠ .zero)
    {digits : List Char} (hd : m.generalText? precision = some digits) :
    Lexeme.all digits = [.token (.number (.finite false m))] := by
  have hdenotes : Literal.Denotes digits (m.toDecimal.roundTo precision).value := by
    rcases Magnitude.generalText?_forms hd with rfl | rfl
    · exact Decimal.denotes_positional _
    · exact Decimal.denotes_scientific _
  obtain ⟨l, hl, rfl, hvalue⟩ := hdenotes
  rw [Literal.all_text hl, Literal.value, Decimal.toBinary64_of_value_roundTo hm h hvalue]

theorem Lexeme.all_signText (negative : Bool) (m : Magnitude) {digits : List Char}
    (h : all digits = [.token (.number (.finite false m))]) :
    all (Binary64.signText negative ++ digits) = (Binary64.finite negative m).spelled.yield.map .token := by
  cases negative with
  | false => exact h
  | true => exact (all_symbol .minus digits).trans (congrArg _ h)

theorem Binary64.all_generalText? {precision : Nat} (h : 17 ≤ precision) {v : Binary64} (hv : v.isFinite)
    {text : String} (ht : v.generalText? precision = some text) :
    Lexeme.all text.toList = v.spelled.yield.map .token := by
  cases v with
  | nan => cases hv
  | infinite negative => cases hv
  | finite negative m =>
    unfold generalText? at ht
    dsimp only at ht
    split at ht
    · rename_i hz
      obtain rfl := Option.some.inj ht
      subst hz
      cases negative <;> decide +kernel
    · rename_i hz
      obtain ⟨digits, hd, rfl⟩ := Option.map_eq_some_iff.mp ht
      rw [Nat.max_eq_left (Nat.le_trans (by decide) h)] at hd
      rw [String.toList_ofList]
      exact Lexeme.all_signText negative m (Magnitude.all_generalText? h hz hd)

namespace Session

/-! ## All lines -/

section

variable {precision : Nat} (h : 17 ≤ precision) (hp : precision ≤ maxPrecision)

/-- What is printed of values that have lines are these lines. -/
theorem mapM_of_lines {vs : List Binary64} (hv : ∀ v ∈ vs, ∃ line, resultLine? precision v = some line) :
    ∃ lines, vs.mapM (resultLine? precision) = some lines ∧
      String.join (lines.map (· ++ "\n")) = printed precision vs := by
  induction vs with
  | nil => exact ⟨[], rfl, rfl⟩
  | cons v vs ih =>
    obtain ⟨⟨line, hline⟩, hrest⟩ := List.forall_mem_cons.mp hv
    obtain ⟨lines, hlines, hjoin⟩ := ih hrest
    refine ⟨line :: lines, by rw [List.mapM_cons, hline, hlines]; rfl, ?_⟩
    rw [List.map_cons, String.join_cons, hjoin, printed_cons hline]

include hp

theorem exists_resultLine? (v : Binary64) : ∃ line, resultLine? precision v = some line := by
  obtain ⟨text, -, hline⟩ := resultLine?_isSome hp v
  exact ⟨_, hline⟩

theorem mapM_resultLine? (vs : List Binary64) :
    ∃ lines, vs.mapM (resultLine? precision) = some lines ∧
      String.join (lines.map (· ++ "\n")) = printed precision vs :=
  mapM_of_lines fun v _ => exists_resultLine? hp v

include h

/-- The lexemes of printed values are statements with these values. -/
theorem all_printed {vs : List Binary64} (hv : ∀ v ∈ vs, v.isFinite) :
    Lexeme.all (printed precision vs).toList = Desk.marked (vs.map Binary64.spelled) := by
  induction vs with
  | nil => exact Lexeme.all_nil
  | cons v vs ih =>
    obtain ⟨hfinite, hrest⟩ := List.forall_mem_cons.mp hv
    obtain ⟨text, ht, hline⟩ := resultLine?_isSome hp v
    have hequals : ("=" : String).toList = [Symbol.equals.char] := by decide
    have hnewline : ("\n" : String).toList = ['\n'] := by decide
    have hlist : (printed precision (v :: vs)).toList =
        (Symbol.equals.char :: text.toList) ++ '\n' :: (printed precision vs).toList := by
      rw [printed_cons hline, String.toList_append, String.toList_append, String.toList_append, hequals, hnewline,
        List.append_assoc]
      rfl
    rw [hlist, Lexeme.all_append_blank (by decide), Lexeme.all_symbol, Binary64.all_generalText? h hfinite ht, ih hrest]
    rfl

theorem evaluate_printed {vs : List Binary64} (hv : ∀ v ∈ vs, v.isFinite) :
    evaluate (printed precision vs) = .ok vs := by
  refine evaluate_marked (all_printed h hp hv) ?_
  simp only [List.map_map, Function.comp_def, Binary64.value_spelled]

/-- A session over printed values prints them again. -/
theorem out_ofText_printed (b : Bindings) {vs : List Binary64} (hv : ∀ v ∈ vs, v.isFinite) :
    (ofText b precision (printed precision vs)).run.2.out.text = printed precision vs := by
  have hremains := remains_ofString (printed precision vs)
  rw [all_printed h hp hv] at hremains
  have hvalues : (ofText b precision (printed precision vs)).desk.values = .ok vs := by
    refine Desk.values_marked hremains ?_
    simp only [List.map_map, Function.comp_def, Binary64.value_spelled]
  rw [out_ofText hp, Desk.results, Desk.answers_of_values hvalues]
  simp [List.filterMap_map, Function.comp_def, Except.toOption]

end

/-! ## Runs -/

/-- The values that a run has printed when it ends. -/
def shown (s : Session) : List Binary64 :=
  match _h : s.turn with
  | (some _, _) => []
  | (none, after) => s.nextValue.1.toOption.join.toList ++ shown after
  termination_by s.unread
  decreasing_by
    have := unread_turn_lt (s := s) (by rw [_h])
    rwa [_h] at this

theorem shown_of_ends {s : Session} {ending : Ending} (h : s.turn.1 = some ending) : s.shown = [] := by
  rw [shown]
  split
  · rfl
  · rename_i hn
    rw [hn] at h
    cases h

theorem shown_of_goes {s : Session} (h : s.turn.1 = none) :
    s.shown = s.nextValue.1.toOption.join.toList ++ s.turn.2.shown := by
  rw [shown]
  split
  · rename_i hn
    rw [hn] at h
    cases h
  · rename_i hn
    rw [hn]

/-- What a turn of `s` has printed: if the run goes on, the lines of `vs`. -/
structure Prints (s : Session) (vs : List Binary64) (a : Option Ending × Session) : Prop where
  precision : a.2.precision = s.precision
  out : a.2.out.text = s.out.text ++ printed s.precision (if a.1 = none then vs else [])

theorem prints_nothing {s : Session} {a : Option Ending × Session} (hp : a.2.precision = s.precision)
    (ho : a.2.out = s.out) : Prints s [] a :=
  ⟨hp, by rw [ho, ite_self]; exact String.append_empty.symm⟩

theorem prints_of_ends {s : Session} {vs : List Binary64} {ending : Ending} {after : Session}
    (hp : after.precision = s.precision) (ho : after.out = s.out) : Prints s vs (some ending, after) :=
  ⟨hp, by rw [if_neg (Option.some_ne_none ending), ho]; exact String.append_empty.symm⟩

theorem prints_printValue (s : Session) (v : Binary64) : Prints s [v] (s.printValue v) := by
  rw [printValue]
  split
  · exact prints_of_ends rfl rfl
  · rename_i line hl
    rw [Sink.writeLine, Sink.write]
    rcases s.out.writeFault with _ | message
    · have hline : printed s.precision [v] = line ++ "\n" := (printed_cons hl []).trans String.append_empty
      exact ⟨rfl, congrArg (s.out.text ++ ·) hline.symm⟩
    · exact prints_of_ends rfl rfl

theorem prints_recover (s : Session) (f : Failure) : Prints s [] (s.recover f) := by
  rw [recover]
  split <;> exact prints_nothing rfl rfl

theorem prints_turn (s : Session) : Prints s s.nextValue.1.toOption.join.toList s.turn := by
  have hprecision : s.nextValue.2.precision = s.precision := rfl
  have hout : s.nextValue.2.out = s.out := rfl
  rw [turn]
  generalize s.nextValue = n at hprecision hout
  obtain ⟨f | _ | v, t⟩ := n
  · dsimp only
    split
    · obtain ⟨hp, ho⟩ := prints_recover t f
      exact ⟨hp.trans hprecision, by rw [ho, ← hout, ← hprecision]; rfl⟩
    · exact prints_nothing hprecision hout
  · exact prints_nothing hprecision hout
  · obtain ⟨hp, ho⟩ := prints_printValue t v
    exact ⟨hp.trans hprecision, by rw [ho, ← hout, ← hprecision]; rfl⟩

/-- Whatever becomes of a run, its output is the lines of the values it has shown. -/
theorem out_run (s : Session) : s.run.2.out.text = s.out.text ++ printed s.precision s.shown := by
  fun_induction run s with
  | case1 s ending after hn =>
    have hturn := s.prints_turn
    rw [hn] at hturn
    rw [hturn.out, if_neg (Option.some_ne_none ending), shown_of_ends (congrArg Prod.fst hn)]
  | case2 s after hn ih =>
    have hturn := s.prints_turn
    rw [hn] at hturn
    rw [ih, hturn.out, if_pos rfl, hturn.precision, shown_of_goes (congrArg Prod.fst hn), hn, printed_append,
      String.append_assoc]

/-- The lines printed of finite values, at seventeen digits or more, are a text with these values.
    So a session over the output of another, of which all values are finite, has the same output. -/
theorem printed_reads_back {precision : Nat} (h : 17 ≤ precision) (hp : precision ≤ maxPrecision) :
    (∀ vs : List Binary64, (∀ v ∈ vs, v.isFinite) →
      ∃ lines, vs.mapM (resultLine? precision) = some lines ∧
        evaluate (String.join (lines.map (· ++ "\n"))) = .ok vs) ∧
    ∀ (s : Session) (earlier : List Binary64), s.precision = precision → s.out.text = printed precision earlier →
      (∀ v ∈ earlier ++ s.shown, v.isFinite) →
        ∀ b, (ofText b precision s.run.2.out.text).run.2.out.text = s.run.2.out.text := by
  constructor
  · intro vs hv
    obtain ⟨lines, hlines, hjoin⟩ := mapM_resultLine? hp vs
    exact ⟨lines, hlines, hjoin ▸ evaluate_printed h hp hv⟩
  · rintro s earlier rfl hearlier hv b
    have hout : s.run.2.out.text = printed s.precision (earlier ++ s.shown) := by
      rw [out_run s, hearlier, printed_append]
    rw [hout]
    exact out_ofText_printed h hp b hv

/-- A zero with a sign and the least number of all read back, and so does a third. -/
theorem printed_reads_back_least :
    evaluate "=-0\n=4.9406564584124654e-324\n" = .ok [.finite true .zero, .ofBits 1] ∧
      (ofText .constants 17 "=0.33333333333333331\n=-0\n").run.2.out.text = "=0.33333333333333331\n=-0\n" := by
  obtain ⟨hvalues, hsessions⟩ := printed_reads_back (by decide : 17 ≤ 17) (by decide)
  constructor
  · obtain ⟨lines, hlines, he⟩ := hvalues [.finite true .zero, .ofBits 1] (by decide)
    have hprinted : [.finite true .zero, .ofBits 1].mapM (resultLine? 17) =
        some ["=-0", "=4.9406564584124654e-324"] := by decide +kernel
    obtain rfl := Option.some.inj (hlines.symm.trans hprinted)
    exact he
  · have hout : (ofText .constants 17 "1/3 = -0").run.2.out.text = "=0.33333333333333331\n=-0\n" := by decide +kernel
    have hagain := hsessions (ofText .constants 17 "1/3 = -0") [] rfl rfl (by decide +kernel) .constants
    rwa [hout] at hagain

end Session

end Reckoner
