/-
  Reckoner.Proofs.OrderedMap — variables are a map that keeps the order of declarations.

  Variables are kept in a list and looked for from its front. Any requests may be made of them:
  to declare a name, to assign to it, to look it up and to ask whether it is bound. What they amount
  to is told by the log of the requests with their answers. A declaration that was accepted adds its
  name behind the others, and nothing else adds, moves or drops one; the value of a name is the one
  that was written last in a request that was accepted.

  - `records_perform`: one request, and the log with it.
  - `records_performAll`: any requests, by induction over them.
  - `follows_the_log`: what variables answer, after any requests.
-/

import Mathlib.Data.List.Nodup
import Reckoner.Proofs.WriteOnce

namespace Reckoner

namespace Bindings

/-! ## Requests -/

inductive Request where
  | declare (name : String) (v : Binary64)
  | assign (name : String) (v : Binary64)
  | lookup (name : String)
  | isBound (name : String)
  deriving DecidableEq

inductive Answer where
  | value (v : Binary64)
  | done
  | bound (yes : Bool)
  | refused (m : Mistake)
  deriving DecidableEq

/-- The answer to a request, and the variables behind it. -/
def perform (b : Bindings) : Request → Answer × Bindings
  | .declare name v =>
    match b.declare name v with
    | .ok c => (.value v, c)
    | .error m => (.refused m, b)
  | .assign name v =>
    match b.assign name v with
    | .ok c => (.done, c)
    | .error m => (.refused m, b)
  | .lookup name =>
    match b.lookup name with
    | .ok v => (.value v, b)
    | .error m => (.refused m, b)
  | .isBound name => (.bound (b.isBound name), b)

abbrev Log := List (Request × Answer)

/-- The log of some requests, and the variables behind them. -/
def performAll (b : Bindings) : List Request → Log × Bindings
  | [] => ([], b)
  | request :: requests =>
    let (answer, after) := b.perform request
    let (log, last) := after.performAll requests
    ((request, answer) :: log, last)

/-! ## What a log says -/

/-- The name that was declared. -/
def declared? : Request × Answer → Option String
  | (.declare name _, .value _) => some name
  | _ => none

/-- The value that was written to `name`. -/
def written? (name : String) : Request × Answer → Option Binary64
  | (.declare n v, .value _) => if n = name then some v else none
  | (.assign n v, .done) => if n = name then some v else none
  | _ => none

namespace Log

/-- The names declared, in the order of their declarations. -/
def declared (log : Log) : List String := log.filterMap declared?

/-- The value written to `name` last. -/
def latest? (log : Log) (name : String) : Option Binary64 := (log.filterMap (written? name)).getLast?

@[simp] theorem declared_append (log : Log) (entry : Request × Answer) :
    declared (log ++ [entry]) = log.declared ++ (declared? entry).toList := by
  unfold declared
  rw [List.filterMap_append]
  cases h : declared? entry <;> simp [h]

@[simp] theorem latest?_append (log : Log) (entry : Request × Answer) (name : String) :
    latest? (log ++ [entry]) name = (written? name entry).or (log.latest? name) := by
  unfold latest?
  rw [List.filterMap_append]
  cases h : written? name entry <;> simp [h]

end Log

/-! ## Single requests -/

variable {b c start : Bindings} {name : String} {v : Binary64} {log : Log}

theorem names_declare (h : b.declare name v = .ok c) : c.names = b.names ++ [name] := by
  unfold declare at h
  split at h
  · cases h
  · cases h
    simp [names]

theorem names_replaceFirst (name : String) (v : Binary64) (list : List Binding) :
    (replaceFirst name v list).map (·.name) = list.map (·.name) := by
  induction list with
  | nil => rfl
  | cons x list ih =>
    unfold replaceFirst
    split
    · rfl
    · rw [List.map_cons, ih, List.map_cons]

theorem names_assign (h : b.assign name v = .ok c) : c.names = b.names := by
  unfold assign at h
  split at h
  · cases h
    exact names_replaceFirst _ _ _
  · cases h

theorem nodup_declare (h : b.declare name v = .ok c) (hb : b.names.Nodup) : c.names.Nodup := by
  have hnew : name ∉ b.names := by
    rw [mem_names]
    intro hbound
    rw [declare, if_pos hbound] at h
    cases h
  rw [names_declare h]
  refine List.nodup_append.mpr ⟨hb, List.pairwise_singleton _ _, ?_⟩
  intro x hx y hy he
  rw [he, List.mem_singleton.mp hy] at hx
  exact hnew hx

/-- With distinct names every binding is found under its own. -/
theorem value?_of_mem (h : b.names.Nodup) {x : Binding} (hx : x ∈ b.toList) : b.value? x.name = some x.value := by
  rcases hf : b.toList.find? (·.name == x.name) with _ | y
  · exact absurd (beq_self_eq_true x.name) (List.find?_eq_none.mp hf x hx)
  · have hname : (y.name == x.name) = true := List.find?_some (p := fun z : Binding => z.name == x.name) hf
    have hsame : y = x := List.inj_on_of_nodup_map h (List.mem_of_find?_eq_some hf) hx (eq_of_beq hname)
    rw [value?, hf, hsame]
    rfl

/-- What a bound name is answered with. -/
theorem perform_of_bound (h : name ∈ b.names) (v : Binary64) :
    b.perform (.declare name v) = (.refused (.declaredTwice name), b) ∧
      (∃ c, b.assign name v = .ok c ∧ b.perform (.assign name v) = (.done, c)) ∧
      (∃ w, b.value? name = some w ∧ b.perform (.lookup name) = (.value w, b)) ∧
      b.perform (.isBound name) = (.bound true, b) := by
  rw [mem_names] at h
  obtain ⟨w, hw⟩ := Option.isSome_iff_exists.mp ((b.isSome_value? name).trans h)
  refine ⟨?_, ⟨⟨replaceFirst name v b.toList⟩, ?_, ?_⟩, ⟨w, hw, ?_⟩, ?_⟩
  · simp only [perform, declare, h, if_true]
  · simp only [assign, h, if_true]
  · simp only [perform, assign, h, if_true]
  · simp only [perform, lookup, hw]
  · rw [perform, h]

/-- And a name that is not bound. -/
theorem perform_of_not_bound (h : name ∉ b.names) (v : Binary64) :
    (∃ c, b.declare name v = .ok c ∧ b.perform (.declare name v) = (.value v, c)) ∧
      b.perform (.assign name v) = (.refused (.undeclared name), b) ∧
      b.perform (.lookup name) = (.refused (.undeclared name), b) ∧
      b.perform (.isBound name) = (.bound false, b) := by
  rw [mem_names, Bool.not_eq_true] at h
  have hw : b.value? name = none := by
    rw [← Option.not_isSome_iff_eq_none, isSome_value?, h]
    exact Bool.false_ne_true
  refine ⟨⟨⟨b.toList ++ [⟨name, v⟩]⟩, ?_, ?_⟩, ?_, ?_, ?_⟩
  · simp only [declare, h, Bool.false_eq_true, if_false]
  · simp only [perform, declare, h, Bool.false_eq_true, if_false]
  · simp only [perform, assign, h, Bool.false_eq_true, if_false]
  · simp only [perform, lookup, hw]
  · rw [perform, h]

/-! ## The log of all requests -/

/-- The variables `b`, which came from `start`, are what the log says. -/
structure Records (start : Bindings) (log : Log) (b : Bindings) : Prop where
  names : b.names = start.names ++ log.declared
  nodup : b.names.Nodup
  value : ∀ name, b.value? name = (log.latest? name).or (start.value? name)

/-- An entry that neither declares nor writes leaves all as it was. -/
theorem Records.still (h : Records start log b) {entry : Request × Answer} (hd : declared? entry = none)
    (hw : ∀ name, written? name entry = none) : Records start (log ++ [entry]) b := by
  refine ⟨?_, h.nodup, ?_⟩
  · rw [h.names, Log.declared_append, hd]
    simp
  · intro name
    rw [h.value, Log.latest?_append, hw]
    simp

theorem records_declare (h : Records start log b) (hc : b.declare name v = .ok c) :
    Records start (log ++ [(.declare name v, .value v)]) c := by
  refine ⟨?_, nodup_declare hc h.nodup, ?_⟩
  · rw [names_declare hc, h.names, Log.declared_append, List.append_assoc]
    rfl
  · intro other
    rw [value?_declare hc, h.value, Log.latest?_append, written?]
    by_cases ho : other = name
    · simp [ho]
    · simp [ho, Ne.symm ho]

theorem records_assign (h : Records start log b) (hc : b.assign name v = .ok c) :
    Records start (log ++ [(.assign name v, .done)]) c := by
  have hnames := names_assign hc
  refine ⟨?_, hnames ▸ h.nodup, ?_⟩
  · rw [hnames, h.names, Log.declared_append]
    exact congrArg _ (List.append_nil _).symm
  · intro other
    rw [value?_assign hc, h.value, Log.latest?_append, written?]
    by_cases ho : other = name
    · simp [ho]
    · simp [ho, Ne.symm ho]

theorem records_perform (h : Records start log b) (request : Request) :
    Records start (log ++ [(request, (b.perform request).1)]) (b.perform request).2 := by
  cases request with
  | declare name v =>
    by_cases hb : name ∈ b.names
    · rw [(perform_of_bound hb v).1]
      exact h.still rfl fun _ => rfl
    · obtain ⟨c, hc, hp⟩ := (perform_of_not_bound hb v).1
      rw [hp]
      exact records_declare h hc
  | assign name v =>
    by_cases hb : name ∈ b.names
    · obtain ⟨c, hc, hp⟩ := (perform_of_bound hb v).2.1
      rw [hp]
      exact records_assign h hc
    · rw [(perform_of_not_bound hb v).2.1]
      exact h.still rfl fun _ => rfl
  | lookup name =>
    have hstill : (b.perform (.lookup name)).2 = b := by
      rw [perform]
      split <;> rfl
    rw [hstill]
    exact h.still rfl fun _ => rfl
  | isBound name => exact h.still rfl fun _ => rfl

theorem records_performAll (h : Records start log b) (requests : List Request) :
    Records start (log ++ (b.performAll requests).1) (b.performAll requests).2 := by
  induction requests generalizing b log with
  | nil =>
    rw [performAll, List.append_nil]
    exact h
  | cons request requests ih =>
    have hrest := ih (records_perform h request)
    rwa [List.append_assoc] at hrest

/-- After any requests, of variables with distinct names: the names are still distinct, in the order
    in which they were declared behind those of the start, and as many more as declarations were
    accepted. A name that is bound is refused to a declaration, which changes nothing, and no other
    request of it is refused; one that is not bound can be declared and nothing else, and again a
    refusal changes nothing. What is looked up is what was written to that name last, whatever was
    written to others, or what the start has; and so is what a list of all shows. -/
theorem follows_the_log {start : Bindings} (h : start.names.Nodup) (requests : List Request) :
    let log := (start.performAll requests).1
    let b := (start.performAll requests).2
    b.names.Nodup ∧ b.names = start.names ++ log.declared ∧ b.size = start.size + log.declared.length ∧
    (∀ name v, name ∈ b.names →
      b.perform (.declare name v) = (.refused (.declaredTwice name), b) ∧
      (b.perform (.assign name v)).1 = .done ∧
      (∃ w, (log.latest? name).or (start.value? name) = some w ∧ b.perform (.lookup name) = (.value w, b)) ∧
      b.perform (.isBound name) = (.bound true, b)) ∧
    (∀ name v, name ∉ b.names →
      (b.perform (.declare name v)).1 = .value v ∧
      b.perform (.assign name v) = (.refused (.undeclared name), b) ∧
      b.perform (.lookup name) = (.refused (.undeclared name), b) ∧
      b.perform (.isBound name) = (.bound false, b)) ∧
    ∀ x ∈ b.toList, (log.latest? x.name).or (start.value? x.name) = some x.value := by
  intro log b
  have hstart : Records start [] start := ⟨(List.append_nil _).symm, h, fun _ => rfl⟩
  have hb : Records start log b := records_performAll hstart requests
  refine ⟨hb.nodup, hb.names, ?_, ?_, ?_, ?_⟩
  · have hlength := congrArg List.length hb.names
    simpa [names, size] using hlength
  · intro name v hname
    obtain ⟨hdeclare, ⟨c, -, hassign⟩, ⟨w, hw, hlookup⟩, hbound⟩ := perform_of_bound hname v
    refine ⟨hdeclare, by rw [hassign], ⟨w, ?_, hlookup⟩, hbound⟩
    rw [← hb.value, hw]
  · intro name v hname
    obtain ⟨⟨c, -, hdeclare⟩, hassign, hlookup, hbound⟩ := perform_of_not_bound hname v
    exact ⟨by rw [hdeclare], hassign, hlookup, hbound⟩
  · intro x hx
    rw [← hb.value, value?_of_mem hb.nodup hx]

/-- `pi` is assigned to between two declarations of `x`, of which the second is refused. -/
theorem follows_the_log_twice :
    let one := (⟨1, 0⟩ : Decimal).toBinary64
    let two := (⟨2, 0⟩ : Decimal).toBinary64
    let requests := [.assign "x" two, .declare "x" one, .assign "pi" two, .declare "x" two, .isBound "y"]
    let log := (constants.performAll requests).1
    let b := (constants.performAll requests).2
    constants.names.Nodup ∧ empty.names.Nodup ∧ log.map (·.2) = [.refused (.undeclared "x"), .value one, .done,
      .refused (.declaredTwice "x"), .bound false] ∧
    b.names = ["pi", "e", "k", "x"] ∧ b.perform (.lookup "x") = (.value one, b) ∧
    b.perform (.lookup "pi") = (.value two, b) ∧ (empty.performAll requests).2.names = ["x"] := by
  intro one two requests log b
  have hempty : empty.names.Nodup := List.nodup_nil
  obtain ⟨-, hnames, -, hbound, -⟩ := follows_the_log nodup_constants requests
  obtain ⟨-, hdeclared, -⟩ := follows_the_log hempty requests
  refine ⟨nodup_constants, hempty, by decide +kernel, hnames.trans (by decide +kernel), ?_, ?_,
    hdeclared.trans (by decide +kernel)⟩
  · obtain ⟨-, -, ⟨w, hw, hlookup⟩, -⟩ := hbound "x" one (by decide +kernel)
    have hone : w = one := Option.some.inj (hw.symm.trans (by decide +kernel))
    rw [hlookup, hone]
  · obtain ⟨-, -, ⟨w, hw, hlookup⟩, -⟩ := hbound "pi" one (by decide +kernel)
    have htwo : w = two := Option.some.inj (hw.symm.trans (by decide +kernel))
    rw [hlookup, htwo]

end Bindings

end Reckoner
