/-
  Reckoner.Text.Terminal — text without what would control a terminal.

  Control characters are left out, and so are control sequences (ECMA-48): an escape character
  and what belongs to it, up to the end that its kind of sequence has. Tabs, line feeds, form
  feeds and carriage returns are shown. Inside a short sequence one of them interrupts it: what
  follows is shown up to the next control character, where the sequence goes on.

  - `plain_of_shown`: text without control characters stays as it is.
-/

namespace Reckoner.Terminal

def escapeCharacter : Char := '\x1b'

/-- Ends a sequence of any kind. -/
def isCancel (c : Char) : Bool := c == '\x18' || c == '\x1a'

/-- The control characters that are shown. -/
def isSpacing (c : Char) : Bool := c == '\t' || c == '\n' || c == '\x0c' || c == '\r'

def isShown (c : Char) : Bool := isSpacing c || (' ' ≤ c && c != '\x7f')

/-- Where a character stands. -/
inductive Place where
  | text
  /-- Behind an escape character, and behind the intermediate characters that may follow it. -/
  | escape
  | intermediate
  /-- In a control sequence, which ends with its final character. -/
  | sequence
  /-- In the head of a device control string. -/
  | deviceControl
  | deviceParameters
  | deviceIntermediate
  /-- In a string that ends with the next sequence, or with a byte 9C. -/
  | controlString
  /-- In a command to the operating system, which ends with the next sequence or a bell. -/
  | systemCommand
  deriving DecidableEq

namespace Place

/-- The sequences that spacing interrupts. -/
def isShort : Place → Bool
  | escape | intermediate | sequence => true
  | _ => false

def isIntermediate (c : Char) : Bool := ' ' ≤ c && c ≤ '/'

/-- Digits and the punctuation behind them. -/
def isParameter (c : Char) : Bool := '0' ≤ c && c ≤ '?'

/-- The parameters that may only come first. -/
def isPrivate (c : Char) : Bool := '<' ≤ c && c ≤ '?'

def isFinal (c : Char) : Bool := '@' ≤ c && c ≤ '~'

def afterEscape (c : Char) : Place :=
  if isIntermediate c then intermediate
  else if c = '[' then sequence
  else if c = 'P' then deviceControl
  else if c = ']' then systemCommand
  else if c = 'X' ∨ c = '^' ∨ c = '_' then controlString
  else if isParameter c || isFinal c then text
  else escape

/-- The place behind a character that begins and cancels nothing. -/
def after (c : Char) : Place → Place
  | text => text
  | escape => afterEscape c
  | intermediate => if isParameter c || isFinal c then text else intermediate
  | sequence => if isFinal c then text else sequence
  | deviceControl =>
    if isIntermediate c then deviceIntermediate
    else if isParameter c then deviceParameters
    else if isFinal c then controlString
    else deviceControl
  | deviceParameters =>
    if isIntermediate c then deviceIntermediate
    else if isPrivate c || isFinal c then controlString
    else deviceParameters
  | deviceIntermediate => if isParameter c || isFinal c then controlString else deviceIntermediate
  | controlString => if (String.utf8EncodeChar c).contains 0x9C then text else controlString
  | systemCommand => if c = '\x07' then text else systemCommand

end Place

/-- The characters that are shown of those that stand at `place`, while what can be shown is
    (`showing`) or is not. -/
def shown (place : Place) (showing : Bool) : List Char → List Char
  | [] => []
  | c :: cs =>
    if c = escapeCharacter then shown .escape false cs
    else if isCancel c then shown .text true cs
    else if showing && isShown c then c :: shown (if c ≤ '\x7f' then place else .text) true cs
    else if place.isShort && isSpacing c then c :: shown place true cs
    else shown (place.after c) (place.after c = .text) cs

def plain (s : String) : String := String.ofList (shown .text true s.toList)

theorem not_control_of_isShown {c : Char} (h : isShown c = true) : c ≠ escapeCharacter ∧ isCancel c = false := by
  constructor
  · rintro rfl
    exact absurd h (by decide)
  · unfold isCancel
    by_cases h1 : c = '\x18'
    · exact absurd (h1 ▸ h) (by decide)
    · by_cases h2 : c = '\x1a'
      · exact absurd (h2 ▸ h) (by decide)
      · simp [h1, h2]

theorem shown_of_shown (cs : List Char) (h : ∀ c ∈ cs, isShown c = true) : shown .text true cs = cs := by
  induction cs with
  | nil => rfl
  | cons c cs ih =>
    have hc := h c List.mem_cons_self
    obtain ⟨he, hx⟩ := not_control_of_isShown hc
    unfold shown
    simp [he, hx, hc, ih fun d hd => h d (List.mem_cons_of_mem c hd)]

/-- Text without control characters stays as it is. -/
theorem plain_of_shown (s : String) (h : ∀ c ∈ s.toList, isShown c = true) : plain s = s := by
  unfold plain
  rw [shown_of_shown _ h, String.ofList_toList]

end Reckoner.Terminal
