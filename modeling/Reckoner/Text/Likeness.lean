/-
  Reckoner.Text.Likeness — how alike two words are.

  Letters of two words are partners if they are equal and stand at places not too far apart;
  each letter has one partner at most (`nodup_partners`). Words are alike in so far as their
  letters have partners, and these stand in the same order. The measure is 0 for words
  without partners and 1 for equal words. It is a binary64 number, rounded at each step, so
  that of two measures equal on paper one may be the greater.
-/

import Reckoner.Decimal.Conversion

namespace Reckoner.Likeness

/-- How far apart the places of partners may be. -/
def reach (v w : List Char) : Nat := max v.length w.length / 2 - 1

/-- The first place in `w` with the letter `c` that is within `reach` of the place `i` and
    has no partner yet. -/
def partner? (w : List Char) (reach i : Nat) (taken : List Nat) (c : Char) : Option Nat :=
  (List.range w.length).find? fun j => w[j]? == some c && i ≤ j + reach && j ≤ i + reach && !taken.contains j

/-- The places in `w` of the partners of letters, the first of which stands at the place `i`,
    behind those `taken` before. -/
def partnersFrom (w : List Char) (reach i : Nat) (taken : List Nat) : List Char → List Nat
  | [] => taken
  | c :: cs =>
    match partner? w reach i taken c with
    | none => partnersFrom w reach (i + 1) taken cs
    | some j => partnersFrom w reach (i + 1) (taken ++ [j]) cs

/-- The places in `w` of the partners of the letters of `v`, in the order of `v`. -/
def partners (v w : List Char) : List Nat := partnersFrom w (reach v w) 0 [] v

theorem not_mem_of_partner? {w : List Char} {reach i j : Nat} {taken : List Nat} {c : Char}
    (h : partner? w reach i taken c = some j) : j ∉ taken := by
  have := List.find?_some h
  simp at this
  exact this.2

theorem nodup_partnersFrom (w : List Char) (reach i : Nat) (taken : List Nat) (v : List Char) (h : taken.Nodup) :
    (partnersFrom w reach i taken v).Nodup := by
  induction v generalizing i taken with
  | nil => exact h
  | cons c cs ih =>
    unfold partnersFrom
    split
    · exact ih _ _ h
    · rename_i j hj
      refine ih _ _ (List.nodup_append.2 ⟨h, List.pairwise_singleton _ j, fun a ha b hb => ?_⟩)
      rw [List.mem_singleton.1 hb]
      exact fun e => not_mem_of_partner? hj (e ▸ ha)

/-- Each letter has one partner at most. -/
theorem nodup_partners (v w : List Char) : (partners v w).Nodup := nodup_partnersFrom w _ 0 [] v List.nodup_nil

/-- How many of these places hold another letter in their order than in the order of `w`. -/
def displaced (w : List Char) (places : List Nat) : Nat :=
  let ordered := (List.range w.length).filter places.contains
  (places.zip ordered).countP fun (j, k) => w[j]? != w[k]?

/-- The number nearest to `n / d`. -/
def ratio (n d : Nat) : Binary64 := .nearest false (n * unitsPerOne) d

/-- The mean of three shares: of the letters of `v` that have partners, of those of `w`, and
    of partners that need not change places in pairs. -/
def measure (v w : List Char) : Binary64 :=
  let places := partners v w
  let count := places.length
  if count = 0 then .zero
  else
    (((ratio count v.length).add (ratio count w.length)).add
      (ratio (count - displaced w places / 2) count)).div (ratio 3 1)

/-- The measure that words must exceed to be called alike: 0.7. -/
def bound : Binary64 := Decimal.toBinary64 ⟨7, -1⟩

def exceeds (a b : Binary64) : Bool := (b.sub a).isBelowZero

/-- The word that is most like `v`, the last of several, if one is like it. -/
def closest? {α : Type} (word : α → List Char) (v : List Char) (candidates : List α) : Option α :=
  (candidates.foldl better none).map Prod.fst
where
  /-- Of the best so far and one candidate more, the better. -/
  better (best : Option (α × Binary64)) (x : α) : Option (α × Binary64) :=
    let m := measure v (word x)
    if exceeds m bound && best.all (fun b => !exceeds b.2 m) then some (x, m) else best

end Reckoner.Likeness
