/-
  Reckoner.Token.Basic — the tokens of a statement and their spellings.

  A declaration may be spelled `let` or `#`; its token is the same and is spelled `let`. Input
  that has run out is a token too, so that the end can be looked at and put back like any
  other token.

  - `ofChar?_char`, `ofSpelling?_spelling`: symbols and keywords are read back from their
    spellings.
-/

import Reckoner.Decimal.Shortest

namespace Reckoner

/-- A token that is one character. -/
inductive Symbol where
  | plus
  | minus
  | star
  | slash
  | percent
  | opening
  | closing
  | comma
  | equals
  deriving DecidableEq

namespace Symbol

def char : Symbol → Char
  | plus => '+'
  | minus => '-'
  | star => '*'
  | slash => '/'
  | percent => '%'
  | opening => '('
  | closing => ')'
  | comma => ','
  | equals => '='

def ofChar? (c : Char) : Option Symbol :=
  if c = '+' then some plus
  else if c = '-' then some minus
  else if c = '*' then some star
  else if c = '/' then some slash
  else if c = '%' then some percent
  else if c = '(' then some opening
  else if c = ')' then some closing
  else if c = ',' then some comma
  else if c = '=' then some equals
  else none

theorem ofChar?_char (s : Symbol) : ofChar? s.char = some s := by cases s <;> decide

theorem char_of_ofChar? {c : Char} {s : Symbol} (h : ofChar? c = some s) : s.char = c := by
  unfold ofChar? at h
  grind [char]

end Symbol

/-- A name that cannot be given to a variable. -/
inductive Keyword where
  | declare
  | exit
  | root
  | power
  deriving DecidableEq

namespace Keyword

def spelling : Keyword → String
  | declare => "let"
  | exit => "exit"
  | root => "sqrt"
  | power => "pow"

def ofSpelling? (name : String) : Option Keyword :=
  [declare, exit, root, power].find? (·.spelling == name)

theorem ofSpelling?_spelling (k : Keyword) : ofSpelling? k.spelling = some k := by cases k <;> decide

end Keyword

inductive Token where
  | number (v : Binary64)
  | name (n : String)
  | keyword (k : Keyword)
  | symbol (s : Symbol)
  | endOfInput
  deriving DecidableEq

namespace Token

/-- The token of a name: a keyword if the whole name is one. -/
def ofName (name : String) : Token :=
  match Keyword.ofSpelling? name with
  | some k => keyword k
  | none => .name name

def symbol? : Token → Option Symbol
  | symbol s => some s
  | _ => none

def spelling : Token → String
  | number v => v.shortestText
  | name n => n
  | keyword k => k.spelling
  | symbol s => s.char.toString
  | endOfInput => "end of input"

/-- Equality of tokens, with numbers compared as numbers. -/
def same : Token → Token → Bool
  | number v, number w => v.same w
  | t, u => t == u

end Token

end Reckoner
