/-
  Reckoner.Options — what the arguments of the command ask for.

  Options are spelled long (`--precision 3`, `--precision=3`) or short (`-p 3`, `-p3`), and
  short ones may be bundled (`-qp 3`). The value of an option that stands in an argument of
  its own is looked at when the next option comes, or at the end: an argument that is not
  understood is reported before a bad value in front of it.

  A long option that does not exist is reported with a usage line of the options given in
  front of it, and with the option that was perhaps meant, if its name is like the one given.
-/

import Reckoner.Command
import Reckoner.Text.Likeness
import Reckoner.Text.Terminal

namespace Reckoner

attribute [local instance (2000)] instPowNat

/-- An option that has a value. -/
inductive ValueOption where
  | file
  | precision
  deriving DecidableEq

/-- An option that has none. -/
inductive Flag where
  | quiet
  | help
  | version
  deriving DecidableEq

inductive NumberFault where
  | empty
  | notDigit
  | tooLarge
  deriving DecidableEq

inductive Request where
  | help
  | version
  | run (o : Options)
  deriving DecidableEq

def ValueOption.shown : ValueOption → String
  | file => "--file <FILE>"
  | precision => "--precision <PRECISION>"

def Flag.shown : Flag → String
  | quiet => "--quiet"
  | help => "--help"
  | version => "--version"

inductive OptionName where
  | value (o : ValueOption)
  | flag (f : Flag)
  deriving DecidableEq

namespace OptionName

/-- An option as a usage line shows it. -/
def shown : OptionName → String
  | value o => o.shown
  | flag f => f.shown

/-- The name behind the two hyphens. -/
def long : OptionName → String
  | value .file => "file"
  | value .precision => "precision"
  | flag .quiet => "quiet"
  | flag .help => "help"
  | flag .version => "version"

def ofShort? (c : Char) : Option OptionName :=
  if c = 'f' then some (value .file)
  else if c = 'p' then some (value .precision)
  else if c = 'q' then some (flag .quiet)
  else if c = 'h' then some (flag .help)
  else if c = 'V' then some (flag .version)
  else none

/-- The options of a run: any of them may be given beside the others. -/
def ofRun : List OptionName := [value .file, flag .quiet, value .precision]

def all : List OptionName := ofRun ++ [flag .help, flag .version]

def ofLong? (name : String) : Option OptionName := all.find? fun o => o.long = name

theorem ofLong?_long (o : OptionName) : ofLong? o.long = some o := by
  rcases o with (_ | _) | (_ | _ | _) <;> decide

/-- The option that was perhaps meant by a name that is none. -/
def meant? (name : String) : Option OptionName := Likeness.closest? (fun o => o.long.toList) name.toList all

end OptionName

inductive UsageError where
  | badPrecision (value : String) (fault : NumberFault)
  | valueMissing (o : ValueOption)
  /-- A flag with a value, in front of which options were given or not. -/
  | valueUnneeded (value : String) (f : Flag) (behindOthers : Bool)
  /-- A long option that does not exist, and the options given in front of it. -/
  | unknown (name : String) (given : List OptionName)
  | unexpected (argument : String)
  | repeated (o : OptionName)
  deriving DecidableEq

namespace Options

/-! ## Values -/

/-- The least number that is too large for a precision. -/
def precisionLimit : Nat := 2 ^ (64 : Nat)

def readDigits (n : Nat) : List Char → Except NumberFault Nat
  | [] => .ok n
  | c :: cs =>
    if c.isDigit then
      let next := n * 10 + (c.toNat - '0'.toNat)
      if precisionLimit ≤ next then .error .tooLarge else readDigits next cs
    else .error .notDigit

/-- Digits, perhaps after a plus sign. -/
def readNumber (cs : List Char) : Except NumberFault Nat :=
  match cs with
  | [] => .error .empty
  | ['+'] => .error .notDigit
  | '+' :: digits => readDigits 0 digits
  | digits => readDigits 0 digits

/-- The values of the options that were given. -/
structure Values where
  file : Option String := none
  quiet : Bool := false
  precision : Option Nat := none

def Values.options (x : Values) : Options :=
  { file := x.file, quiet := x.quiet, precision := x.precision.getD defaultPrecision }

def set (o : ValueOption) (value : String) (x : Values) : Except UsageError Values :=
  match o with
  | .file =>
    if x.file.isSome then .error (.repeated (.value o))
    else if value = "" then .error (.valueMissing o)
    else .ok { x with file := some value }
  | .precision =>
    if x.precision.isSome then .error (.repeated (.value o))
    else
      match readNumber value.toList with
      | .ok n => .ok { x with precision := some n }
      | .error fault => .error (.badPrecision value fault)

/-! ## Arguments -/

/-- The values so far, the options that were given, in their order, and the last one if it stands
    without its value or with a value that has not been looked at. -/
structure Reading where
  values : Values := {}
  given : List OptionName := []
  pending : Option (ValueOption × Option String) := none

namespace Reading

def settle (r : Reading) : Except UsageError Reading :=
  match r.pending with
  | none => .ok r
  | some (o, none) => .error (.valueMissing o)
  | some (o, some value) => do
    return { values := ← set o value r.values, given := r.given ++ [.value o] }

/-- The options that an option that does not exist is reported behind. One that has a value
    counts whatever the value is; one that was given before takes that one away. -/
def named (r : Reading) : List OptionName :=
  match r.pending with
  | some (o, some _) => if .value o ∈ r.given then r.given.erase (.value o) else r.given ++ [.value o]
  | _ => r.given

/-- What an argument comes to: the options with it, or an end of the reading. -/
inductive Progress where
  | more (r : Reading)
  | done (request : Request)

def setFlag (f : Flag) (r : Reading) : Except UsageError Progress := do
  let r ← r.settle
  match f with
  | .quiet =>
    if r.values.quiet then .error (.repeated (.flag f))
    else .ok (.more { r with values := { r.values with quiet := true }, given := r.given ++ [.flag f] })
  | .help => .ok (.done .help)
  | .version => .ok (.done .version)

def setValue (o : ValueOption) (attached : Option String) (r : Reading) : Except UsageError Progress := do
  let r ← r.settle
  let opened := { r with pending := some (o, attached) }
  if attached.isSome then return .more (← opened.settle) else return .more opened

/-- The argument `--body`. -/
def long (body : List Char) (r : Reading) : Except UsageError Progress :=
  let name := String.ofList (body.takeWhile (· != '='))
  let attached :=
    match body.dropWhile (· != '=') with
    | [] => none
    | _ :: value => some (String.ofList value)
  match OptionName.ofLong? name, attached with
  | none, _ => .error (.unknown name r.named)
  | some (.value o), _ => setValue o attached r
  | some (.flag f), none => setFlag f r
  | some (.flag f), some value => .error (.valueUnneeded value f (!r.given.isEmpty))

/-- A value that stands behind a short option, with or without an equals sign. -/
def attachedValue : List Char → Option String
  | [] => none
  | '=' :: value => some (String.ofList value)
  | value => some (String.ofList value)

/-- The argument `-body`. -/
def short (r : Reading) : List Char → Except UsageError Progress
  | [] => .ok (.more r)
  | c :: body =>
    match OptionName.ofShort? c with
    | none => .error (.unexpected ("-" ++ c.toString))
    | some (.value o) => setValue o (attachedValue body) r
    | some (.flag f) => do
      match ← setFlag f r with
      | .more r => short r body
      | .done request => .ok (.done request)

/-- An argument that is no option: the value of the option before it, if that has none. -/
def plain (argument : String) (r : Reading) : Except UsageError Progress :=
  match r.pending with
  | some (o, none) => .ok (.more { r with pending := some (o, some argument) })
  | _ => .error (.unexpected argument)

def argument (text : String) (r : Reading) : Except UsageError Progress :=
  match text.toList with
  | '-' :: '-' :: body => long body r
  | '-' :: c :: body => short r (c :: body)
  | _ => plain text r

/-- Behind `--` no argument is an option, and nothing else is expected. -/
def arguments (r : Reading) : List String → Except UsageError Request
  | [] => return .run (← r.settle).values.options
  | "--" :: [] => return .run (← r.settle).values.options
  | "--" :: text :: _ => .error (.unexpected text)
  | text :: rest => do
    match ← argument text r with
    | .more r => arguments r rest
    | .done request => .ok request

end Reading

/-- What the arguments ask for. -/
def parse (args : List String) : Except UsageError Request := Reading.arguments {} args

end Options

/-! ## Texts -/

def NumberFault.message : NumberFault → String
  | empty => "cannot parse integer from empty string"
  | notDigit => "invalid digit found in string"
  | tooLarge => "number too large to fit in target type"

namespace Options

/-- A usage line with what it shows behind the command's name. -/
def usageLine (shown : List String) : String := String.intercalate " " ("Usage:" :: "deskcalc" :: shown)

def usage : String := usageLine ["[OPTIONS]"]

/-- The options of a run as alternatives. -/
def alternatives : String := "<" ++ String.intercalate "|" (OptionName.ofRun.map OptionName.shown) ++ ">"

def help : String :=
  "An interactive desk calculator with variables, square roots and integer powers.\n\n" ++
  usage ++ "\n\n" ++
  "Options:\n" ++
  "  -f, --file <FILE>            Reads statements from a file instead of standard input\n" ++
  "  -q, --quiet                  Skips the usage banner\n" ++
  "  -p, --precision <PRECISION>  Number of significant digits printed for each result [default: 6]\n" ++
  "  -h, --help                   Print help\n" ++
  "  -V, --version                Print version\n"

def version : String := "deskcalc 0.1.0\n"

end Options

namespace UsageError

/-- What went wrong. What was given is shown without control characters. -/
def what : UsageError → String
  | badPrecision value fault =>
    "invalid value '" ++ Terminal.plain value ++ "' for '" ++ ValueOption.precision.shown ++ "': " ++ fault.message
  | valueMissing o => "a value is required for '" ++ o.shown ++ "' but none was supplied"
  | valueUnneeded value f _ =>
    "unexpected value '" ++ Terminal.plain value ++ "' for '" ++ f.shown ++ "' found; no more were expected"
  | unknown name _ => "unexpected argument '" ++ Terminal.plain ("--" ++ name) ++ "' found"
  | unexpected argument => "unexpected argument '" ++ Terminal.plain argument ++ "' found"
  | repeated o => "the argument '" ++ o.shown ++ "' cannot be used multiple times"

def tip : UsageError → Option String
  | unknown name _ =>
    (OptionName.meant? name).map fun o => "  tip: a similar argument exists: '--" ++ o.long ++ "'"
  | _ => none

/-- The options given in front of one that does not exist, and the one that was perhaps meant,
    if it is not among them. -/
def withMeant (given : List OptionName) : Option OptionName → List OptionName
  | none => given
  | some o => if o ∈ given then given else given ++ [o]

/-- The usage line. There is none for what is wrong with the value of an option. A flag with a
    value is shown beside the options of a run, if one was given; `--quiet` is one of them. -/
def usage : UsageError → Option String
  | badPrecision _ _ => none
  | valueMissing _ => none
  | valueUnneeded _ f behindOthers =>
    if behindOthers then
      some (Options.usageLine ((if .flag f ∈ OptionName.ofRun then [] else [f.shown]) ++ [Options.alternatives]))
    else some (Options.usageLine [f.shown])
  | unknown name given =>
    match withMeant given (OptionName.meant? name) with
    | [] => some Options.usage
    | os => some (Options.usageLine (os.map OptionName.shown))
  | unexpected _ => some Options.usage
  | repeated _ => some Options.usage

/-- The paragraphs of the report, with an empty line between them. -/
def paragraphs (e : UsageError) : List String :=
  ("error: " ++ e.what) :: e.tip.toList ++ e.usage.toList ++ ["For more information, try '--help'."]

def message (e : UsageError) : String := String.intercalate "\n\n" e.paragraphs ++ "\n"

end UsageError

end Reckoner
