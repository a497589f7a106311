/-
  Reckoner.Text.Utf8 — bytes as characters.

  Well-formed UTF-8 (RFC 3629) is decoded as such. Bytes that are not become the replacement
  character, one for each longest run that begins a well-formed sequence and for each byte
  that begins none. The decoder holds what it has read of a sequence; a byte that does not
  continue it ends it there and begins anew.

  - `decode_append_newline`: a line break is a character of its own wherever it stands, so
    that text may be decoded line by line.
-/

namespace Reckoner.Utf8

def replacement : Char := '\uFFFD'

/-- The beginning of a sequence: its bits so far, how many bytes are to come, and the range
    of the next one. -/
structure Partial where
  bits : Nat
  toCome : Nat
  low : Nat
  high : Nat
  deriving DecidableEq

/-- What a byte between characters is: a whole character, the beginning of a sequence, or
    neither. -/
inductive First where
  | single (c : Char)
  | opening (p : Partial)
  | invalid

def first (b : Nat) : First :=
  if b ≤ 0x7F then .single (Char.ofNat b)
  else if 0xC2 ≤ b ∧ b ≤ 0xDF then .opening ⟨b - 0xC0, 1, 0x80, 0xBF⟩
  else if b = 0xE0 then .opening ⟨0, 2, 0xA0, 0xBF⟩
  else if b = 0xED then .opening ⟨0x0D, 2, 0x80, 0x9F⟩
  else if 0xE1 ≤ b ∧ b ≤ 0xEF then .opening ⟨b - 0xE0, 2, 0x80, 0xBF⟩
  else if b = 0xF0 then .opening ⟨0, 3, 0x90, 0xBF⟩
  else if 0xF1 ≤ b ∧ b ≤ 0xF3 then .opening ⟨b - 0xF0, 3, 0x80, 0xBF⟩
  else if b = 0xF4 then .opening ⟨4, 3, 0x80, 0x8F⟩
  else .invalid

/-- A byte between characters: the characters it completes and the sequence it begins. -/
def start (b : Nat) : List Char × Option Partial :=
  match first b with
  | .single c => ([c], none)
  | .opening p => ([], some p)
  | .invalid => ([replacement], none)

/-- A byte after `pending`: the characters it completes and the sequence it leaves open. -/
def step (pending : Option Partial) (b : Nat) : List Char × Option Partial :=
  match pending with
  | none => start b
  | some p =>
    if p.low ≤ b ∧ b ≤ p.high then
      let bits := p.bits * 0x40 + (b - 0x80)
      if p.toCome ≤ 1 then ([Char.ofNat bits], none) else ([], some ⟨bits, p.toCome - 1, 0x80, 0xBF⟩)
    else
      let (cs, next) := start b
      (replacement :: cs, next)

/-- The characters of `bytes`, read after `pending`. -/
def decodeFrom (pending : Option Partial) : List UInt8 → List Char
  | [] => if pending.isSome then [replacement] else []
  | b :: bytes =>
    let (cs, next) := step pending b.toNat
    cs ++ decodeFrom next bytes

def decode (bytes : List UInt8) : List Char := decodeFrom none bytes

/-! ## Lines -/

def newline : UInt8 := 0x0A

/-- What lies open before a byte is within the range of bytes that continue a sequence. -/
def Partial.Continues (p : Partial) : Prop := 0x80 ≤ p.low

theorem start_continues {b : Nat} {p : Partial} (h : (start b).2 = some p) : p.Continues := by
  unfold start first at h
  grind [Partial.Continues]

theorem step_continues {o : Option Partial} {b : Nat} {p : Partial} (h : (step o b).2 = some p) :
    p.Continues := by
  unfold step at h
  grind [Partial.Continues, start_continues]

theorem step_newline {o : Option Partial} (h : ∀ p ∈ o, p.Continues) :
    step o newline.toNat = (if o.isSome then [replacement, '\n'] else ['\n'], none) := by
  cases o with
  | none => rfl
  | some p =>
    have hp : ¬(p.low ≤ newline.toNat ∧ newline.toNat ≤ p.high) := fun hr =>
      absurd (Nat.le_trans (h p rfl) hr.1) (by decide)
    simp only [step, if_neg hp]
    rfl

theorem decodeFrom_append_newline {o : Option Partial} (h : ∀ p ∈ o, p.Continues) (a b : List UInt8) :
    decodeFrom o (a ++ newline :: b) = decodeFrom o a ++ '\n' :: decode b := by
  induction a generalizing o with
  | nil =>
    simp only [List.nil_append, decodeFrom, step_newline h]
    cases o <;> rfl
  | cons x a ih =>
    have hs : ∀ p ∈ (step o x.toNat).2, p.Continues := fun p hp => step_continues hp
    simp only [List.cons_append, decodeFrom, ih hs, List.append_assoc]

theorem decode_append_newline (a b : List UInt8) : decode (a ++ newline :: b) = decode a ++ '\n' :: decode b :=
  decodeFrom_append_newline (by simp) a b

end Reckoner.Utf8
