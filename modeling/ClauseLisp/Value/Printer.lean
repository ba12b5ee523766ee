import ClauseLisp.Quoted
import ClauseLisp.Value

/-! Texts of values: as they are written, as they are displayed, and as expressions show them. -/

namespace ClauseLisp

def braced (s : Bytes) : Bytes := Bracket.brace.opener :: s ++ [Bracket.brace.closer]

namespace Value

mutual

def text : Value → Bytes
  | nil => utf8 "nil"
  | boolean b => booleanText b
  | integer i => Bytes.signedDecimal i.toInt
  | float d => d.text
  | string s => quoted s
  | tag name => utf8 ":" ++ name
  | list xs => utf8 "(" ++ textSpaced xs ++ utf8 ")"
  | tuple xs => braced (textSpaced xs)
  | map es => utf8 "%" ++ braced (textEntries es)
  | procedure p => utf8 "<procedure " ++ p.name ++ utf8 ">"

def textSpaced : List Value → Bytes
  | [] => []
  | [x] => text x
  | x :: y :: zs => text x ++ utf8 " " ++ textSpaced (y :: zs)

def textEntries : List (Value × Value) → Bytes
  | [] => []
  | [(k, v)] => text k ++ utf8 " " ++ text v
  | (k, v) :: e :: es => text k ++ utf8 " " ++ text v ++ utf8 ", " ++ textEntries (e :: es)

end

/-- The text that printing shows: nil is empty, strings and tags are bare. -/
def display : Value → Bytes
  | nil => []
  | string s => s
  | tag name => name
  | v => v.text

mutual

def shown : Value → Bytes
  | list xs => utf8 "[" ++ shownList xs ++ utf8 "]"
  | tuple xs => braced (shownList xs)
  | map es => utf8 "%" ++ braced (shownEntries es)
  | v => v.text

def shownList : List Value → Bytes
  | [] => []
  | [x] => shown x
  | x :: y :: zs => shown x ++ utf8 ", " ++ shownList (y :: zs)

def shownEntries : List (Value × Value) → Bytes
  | [] => []
  | [(k, v)] => shown k ++ utf8 " => " ++ shown v
  | (k, v) :: e :: es => shown k ++ utf8 " => " ++ shown v ++ utf8 ", " ++ shownEntries (e :: es)

end

end Value
end ClauseLisp
