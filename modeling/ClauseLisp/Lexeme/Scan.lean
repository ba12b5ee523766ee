import ClauseLisp.Lexeme

/-! Cutting source text into lexemes. Scanning knows nothing of locations: it returns the bytes it
took, or the bytes in front of the spot that is wrong, and locations follow from those. -/

namespace ClauseLisp

def isWhitespace (c : UInt8) : Bool :=
  c == byte ' ' || c == byte '\t' || c == byte '\n' || c == byte '\r'

def isDelimiter (c : UInt8) : Bool :=
  isWhitespace c || (utf8 "()[]\";~").contains c || c == Bracket.brace.closer

def isUnsupported (c : UInt8) : Bool :=
  (utf8 "#$%^&\\,`'@").contains c || c == Bracket.brace.opener ||
    (c < 0x20 && !isWhitespace c) || c == 0x7f

inductive LexError where
  | unsupported (c : UInt8)
  | unterminatedString
  | unterminatedInterpolation
  | emptyInterpolation
  | emptyKeyword
  | invalidFloat (text : Bytes)
  | integerOutOfRange (text : Bytes)
deriving DecidableEq

namespace LexError

def describeByte (c : UInt8) : Bytes :=
  if c < 0x20 ∨ c = 0x7f then utf8 "\\x" ++ Bytes.hexByte c else [c]

def cause : LexError → Bytes
  | unsupported c => utf8 "Unsupported character: " ++ describeByte c
  | unterminatedString => utf8 "Unterminated string"
  | unterminatedInterpolation => utf8 "Unterminated interpolation"
  | emptyInterpolation => utf8 "Empty interpolation"
  | emptyKeyword => utf8 "Empty keyword"
  | invalidFloat text => utf8 "Invalid floating point literal: " ++ text
  | integerOutOfRange text => utf8 "Integer literal out of range: " ++ text

end LexError

namespace Lexeme

structure Cut where
  lexeme : Lexeme
  taken : Bytes
  rest : Bytes

structure Failure where
  error : LexError
  before : Bytes

/-- Whitespace and comments in front of a text. A comment ends before its newline. -/
def gap : Bool → Bytes → Bytes × Bytes
  | _, [] => ([], [])
  | inComment, c :: s =>
    if isWhitespace c && (!inComment || c == byte '\n') then
      let (g, r) := gap false s
      (c :: g, r)
    else if inComment || c == byte ';' then
      let (g, r) := gap true s
      (c :: g, r)
    else ([], c :: s)

def checkName (before name : Bytes) : Except Failure Unit :=
  match name.dropWhile (!isUnsupported ·) with
  | [] => .ok ()
  | c :: _ => .error ⟨.unsupported c, before ++ name.takeWhile (!isUnsupported ·)⟩

def ofWord (name : Bytes) : Lexeme :=
  if name = utf8 "true" then .atom (.boolean true)
  else if name = utf8 "false" then .atom (.boolean false)
  else if name = utf8 "nil" then .atom .nil
  else .atom (.symbol name)

def symbol (c : UInt8) (s : Bytes) : Except Failure Cut :=
  let name := c :: s.takeWhile (!isDelimiter ·)
  match checkName [] name with
  | .error f => .error f
  | .ok _ => .ok ⟨ofWord name, name, s.dropWhile (!isDelimiter ·)⟩

def keyword (s : Bytes) : Except Failure Cut :=
  let name := s.takeWhile (!isDelimiter ·)
  match checkName (utf8 ":") name with
  | .error f => .error f
  | .ok _ =>
    if name = [] then .error ⟨.emptyKeyword, []⟩
    else .ok ⟨.atom (.keyword name), byte ':' :: name, s.dropWhile (!isDelimiter ·)⟩

def unescape (c : UInt8) : Bytes :=
  if c = byte 'n' then utf8 "\n"
  else if c = byte 't' then utf8 "\t"
  else if c = byte 'r' then utf8 "\r"
  else if c = byte '"' ∨ c = byte '\\' then [c]
  else [byte '\\', c]

/-- A string after its opening quote: its value, the bytes through the closing quote and the rest,
or nothing if it does not end. -/
def stringBody? : Bytes → Option (Bytes × Bytes × Bytes)
  | [] => none
  | [c] => if c = byte '"' then some ([], [c], []) else none
  | c :: e :: s =>
    if c = byte '"' then some ([], [c], e :: s)
    else if c = byte '\\' then
      (stringBody? s).map fun (v, t, r) => (unescape e ++ v, c :: e :: t, r)
    else (stringBody? (e :: s)).map fun (v, t, r) => (c :: v, c :: t, r)

def string (s : Bytes) : Except Failure Cut :=
  match stringBody? s with
  | none => .error ⟨.unterminatedString, []⟩
  | some (v, t, r) => .ok ⟨.atom (.string v), byte '"' :: t, r⟩

def interpolation (s : Bytes) : Except Failure Cut :=
  let name := s.takeWhile (· != Bracket.brace.closer)
  match s.dropWhile (· != Bracket.brace.closer) with
  | [] => .error ⟨.unterminatedInterpolation, []⟩
  | _ :: rest =>
    if name = [] then .error ⟨.emptyInterpolation, []⟩
    else .ok ⟨.atom (.interpolation name), interpolationText name, rest⟩

def tilde : Bytes → Except Failure Cut
  | [] => .ok ⟨.mark .unquote, utf8 "~", []⟩
  | c :: s =>
    if c = byte '@' then .ok ⟨.mark .splice, utf8 "~@", s⟩
    else if c = Bracket.brace.opener then interpolation s
    else .ok ⟨.mark .unquote, utf8 "~", c :: s⟩

def digitsAndPlaces (s : Bytes) : Bytes × Bytes :=
  let whole := s.takeWhile Bytes.isDigit
  match s.dropWhile Bytes.isDigit with
  | [] => (whole, [])
  | c :: t =>
    if c = byte '.' then (whole ++ c :: t.takeWhile Bytes.isDigit, t.dropWhile Bytes.isDigit)
    else (whole, c :: t)

def numberOfText (text : Bytes) : Except LexError Number :=
  if text.contains (byte '.') then
    match Binary64.ofFixedText? text with
    | some d => .ok (.float d)
    | none => .error (.invalidFloat text)
  else
    match (Integer.ofText? text).bind Integer.fit? with
    | some i => .ok (.integer i)
    | none => .error (.integerOutOfRange text)

def number (c : UInt8) (s : Bytes) : Except Failure Cut :=
  let (digits, rest) := digitsAndPlaces s
  match numberOfText (c :: digits) with
  | .ok n => .ok ⟨.atom (.number n), c :: digits, rest⟩
  | .error e => .error ⟨e, []⟩

/-- Whether `c :: s` starts with a number: a minus sign counts only before a digit. -/
def startsNumber (c : UInt8) (s : Bytes) : Bool :=
  Bytes.isDigit c || (c == byte '-' && s.head?.any Bytes.isDigit)

def single? (c : UInt8) : Option Lexeme :=
  if c = byte '(' then some (.opening .paren)
  else if c = byte ')' then some (.closing .paren)
  else if c = byte '[' then some (.opening .square)
  else if c = byte ']' then some (.closing .square)
  else if c = Bracket.brace.opener then some (.opening .brace)
  else if c = Bracket.brace.closer then some (.closing .brace)
  else if c = byte '\'' then some (.mark .quote)
  else if c = byte '`' then some (.mark .quasiquote)
  else none

def scan (c : UInt8) (s : Bytes) : Except Failure Cut :=
  match single? c with
  | some l => .ok ⟨l, [c], s⟩
  | none =>
    if c = byte '~' then tilde s
    else if c = byte '"' then string s
    else if c = byte ':' then keyword s
    else if startsNumber c s then number c s
    else symbol c s

end Lexeme
end ClauseLisp
