import ClauseLisp.Location
import ClauseLisp.Number

/-! Lexemes: brackets, marks and atoms; a token is a lexeme at a location. -/

namespace ClauseLisp

/-- Lists are in parentheses, vectors in square brackets, tuples in braces. -/
inductive Bracket where
  | paren | square | brace
deriving DecidableEq, Inhabited

inductive Mark where
  | quote | quasiquote | unquote | splice
deriving DecidableEq, Inhabited

inductive Atom where
  | nil
  | boolean (b : Bool)
  | number (n : Number)
  | string (s : Bytes)
  | symbol (name : Bytes)
  | keyword (name : Bytes)
  | interpolation (name : Bytes)
deriving DecidableEq, Inhabited

inductive Lexeme where
  | opening (b : Bracket)
  | closing (b : Bracket)
  | mark (m : Mark)
  | atom (a : Atom)
deriving DecidableEq, Inhabited

structure Token where
  lexeme : Lexeme
  loc : Location
deriving DecidableEq, Inhabited

namespace Bracket

def opener : Bracket → UInt8
  | paren => byte '('
  | square => byte '['
  | brace => byte '\x7b'

def closer : Bracket → UInt8
  | paren => byte ')'
  | square => byte ']'
  | brace => byte '\x7d'

end Bracket

def Mark.text : Mark → Bytes
  | quote => utf8 "'"
  | quasiquote => utf8 "`"
  | unquote => utf8 "~"
  | splice => utf8 "~@"

def booleanText (b : Bool) : Bytes := utf8 (if b then "true" else "false")

def interpolationText (name : Bytes) : Bytes :=
  utf8 "~" ++ [Bracket.brace.opener] ++ name ++ [Bracket.brace.closer]

namespace Lexeme

def text : Lexeme → Bytes
  | opening b => [b.opener]
  | closing b => [b.closer]
  | mark m => m.text
  | atom .nil => utf8 "nil"
  | atom (.boolean b) => booleanText b
  | atom (.number n) => n.shortText
  | atom (.string s) => utf8 "\"" ++ s ++ utf8 "\""
  | atom (.symbol name) => name
  | atom (.keyword name) => utf8 ":" ++ name
  | atom (.interpolation name) => interpolationText name

end Lexeme
end ClauseLisp
