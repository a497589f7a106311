/-
  Reckoner.Failure — what can go wrong, and how it is reported.

  A mistake is in what was typed: it ends the statement it is in, and the session goes on.
  Any other failure ends the session.
-/

import Reckoner.Token.Basic

namespace Reckoner

inductive Mistake where
  | strayCharacter (c : Char)
  | expected (wanted : Symbol) (found : Token)
  | operandExpected (found : Token)
  | nameExpected (found : Token)
  | equalsMissing (name : String)
  | inputEnded
  | divisionByZero
  | negativeRoot (value : Binary64)
  | declaredTwice (name : String)
  | undeclared (name : String)
  | exponentNoNumber (found : Token)
  | exponentNotWhole (value : Binary64)
  | exponentNegative (exponent : Int)
  | exponentTooLarge (value : Binary64)
  deriving DecidableEq

def quoted (text : String) : String := "'" ++ text ++ "'"

def Mistake.message : Mistake → String
  | strayCharacter c => "Bad token " ++ quoted c.toString
  | expected wanted found => quoted wanted.char.toString ++ " expected, found " ++ quoted found.spelling
  | operandExpected found => "Primary expected, found " ++ quoted found.spelling
  | nameExpected found => "Name expected in declaration, found " ++ quoted found.spelling
  | equalsMissing name => "'=' missing in declaration of " ++ quoted name
  | inputEnded => "Unexpected end of input"
  | divisionByZero => "Division by zero"
  | negativeRoot value => "Square root of negative number " ++ value.shortestText
  | declaredTwice name => "Variable " ++ quoted name ++ " declared twice"
  | undeclared name => "Undefined variable " ++ quoted name
  | exponentNoNumber found => "Second argument of 'pow' is not a number, found " ++ quoted found.spelling
  | exponentNotWhole value => "Second argument of 'pow' is not an integer: " ++ value.shortestText
  | exponentNegative exponent => "Negative exponent " ++ toString exponent ++ " is not supported by 'pow'"
  | exponentTooLarge value => "Exponent " ++ value.shortestText ++ " is too large"

inductive Failure where
  /-- A mistake and the line it was noticed on. -/
  | mistake (line : Nat) (m : Mistake)
  /-- A token was put back while another one waited to be read again. -/
  | heldTwice (line : Nat)
  /-- Reading or writing failed. -/
  | io (message : String)
  deriving DecidableEq

namespace Failure

def isRecoverable : Failure → Bool
  | mistake _ _ => true
  | heldTwice _ => false
  | io _ => false

def onLine (line : Nat) (text : String) : String := "Error on line " ++ toString line ++ ": " ++ text ++ "."

def message : Failure → String
  | mistake line m => onLine line m.message
  | heldTwice line => onLine line "putback() into full buffer"
  | io message => "I/O error: " ++ message

end Failure

end Reckoner
