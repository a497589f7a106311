/-
  Reckoner.Bindings — the variables declared so far.

  Names are bound in the order of their declarations, each once; a binding is never dropped.

  - `value?_declare`, `value?_assign`: what is found after a declaration or an assignment.
-/

import Reckoner.Failure

namespace Reckoner

structure Binding where
  name : String
  value : Binary64
  deriving DecidableEq

/-- The bindings in the order of their declarations. -/
structure Bindings where
  toList : List Binding := []
  deriving DecidableEq

namespace Bindings

def empty : Bindings := {}

/-- The bindings every session starts with. -/
def constants : Bindings :=
  ⟨[⟨"pi", (⟨31415926535, -10⟩ : Decimal).toBinary64⟩,
    ⟨"e", (⟨27182818284, -10⟩ : Decimal).toBinary64⟩,
    ⟨"k", (⟨1000, 0⟩ : Decimal).toBinary64⟩]⟩

def size (b : Bindings) : Nat := b.toList.length

def value? (b : Bindings) (name : String) : Option Binary64 :=
  (b.toList.find? (·.name == name)).map (·.value)

def isBound (b : Bindings) (name : String) : Bool := b.toList.any (·.name == name)

def lookup (b : Bindings) (name : String) : Except Mistake Binary64 :=
  match b.value? name with
  | some v => .ok v
  | none => .error (.undeclared name)

/-- Binds a name that is not bound yet. -/
def declare (b : Bindings) (name : String) (v : Binary64) : Except Mistake Bindings :=
  if b.isBound name then .error (.declaredTwice name) else .ok ⟨b.toList ++ [⟨name, v⟩]⟩

/-- `list` with the first binding of `name` changed to `v`. -/
def replaceFirst (name : String) (v : Binary64) : List Binding → List Binding
  | [] => []
  | x :: list => if x.name == name then ⟨x.name, v⟩ :: list else x :: replaceFirst name v list

/-- Gives a bound name another value, in its place. -/
def assign (b : Bindings) (name : String) (v : Binary64) : Except Mistake Bindings :=
  if b.isBound name then .ok ⟨replaceFirst name v b.toList⟩ else .error (.undeclared name)

theorem isBound_iff {b : Bindings} {name : String} : b.isBound name = true ↔ ∃ x ∈ b.toList, x.name = name := by
  simp [isBound]

theorem isSome_value? (b : Bindings) (name : String) : (b.value? name).isSome = b.isBound name := by
  rw [value?, isBound, Option.isSome_map, Bool.eq_iff_iff, List.find?_isSome, List.any_eq_true]

theorem value?_declare {b c : Bindings} {name : String} {v : Binary64} (h : b.declare name v = .ok c)
    (other : String) : c.value? other = if other = name then some v else b.value? other := by
  unfold declare at h
  split at h
  · cases h
  · rename_i hb
    cases h
    simp only [value?, List.find?_append]
    by_cases ho : other = name
    · subst ho
      have hn : b.toList.find? (·.name == other) = none := by
        rw [List.find?_eq_none]
        intro x hx he
        exact hb (isBound_iff.mpr ⟨x, hx, eq_of_beq he⟩)
      simp [hn]
    · have hs : List.find? (fun x : Binding => x.name == other) [⟨name, v⟩] = none := by
        simp [Ne.symm ho]
      simp [hs, ho]

theorem find?_replaceFirst (name other : String) (v : Binary64) (list : List Binding) :
    ((replaceFirst name v list).find? (·.name == other)).map (·.value) =
      if other = name ∧ list.any (·.name == name) then some v
      else (list.find? (·.name == other)).map (·.value) := by
  induction list with
  | nil => simp [replaceFirst]
  | cons x list ih =>
    unfold replaceFirst
    by_cases hx : x.name = name
    · by_cases ho : other = name
      · simp [hx, ho]
      · have : ¬ name = other := fun h => ho h.symm
        simp [hx, this, ho]
    · by_cases ho : x.name = other
      · have : ¬ other = name := fun h => hx (ho.trans h)
        simp [ho, this]
      · simp [hx, ho, ih]

theorem value?_assign {b c : Bindings} {name : String} {v : Binary64} (h : b.assign name v = .ok c)
    (other : String) : c.value? other = if other = name then some v else b.value? other := by
  unfold assign at h
  split at h
  · rename_i hb
    cases h
    have := find?_replaceFirst name other v b.toList
    simp only [value?, this]
    unfold isBound at hb
    simp only [hb, and_true]
  · cases h

end Bindings

end Reckoner
