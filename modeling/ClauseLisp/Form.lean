import ClauseLisp.Lexeme

/-! Forms: atoms, bracketed sequences and marked forms, each with the location of its first byte. -/

namespace ClauseLisp

inductive Form where
  | atom (loc : Location) (a : Atom)
  | sequence (loc : Location) (b : Bracket) (elements : List Form)
  | marked (loc : Location) (m : Mark) (datum : Form)
deriving Inhabited

def Atom.same : Atom → Atom → Bool
  | .number m, .number n => m.same n
  | a, b => a == b

namespace Form

def loc : Form → Location
  | atom loc _ => loc
  | sequence loc _ _ => loc
  | marked loc _ _ => loc

def isSequence : Form → Bool
  | sequence .. => true
  | _ => false

def elements? : Form → Option (List Form)
  | sequence _ _ xs => some xs
  | _ => none

def symbol? : Form → Option Bytes
  | atom _ (.symbol name) => some name
  | _ => none

mutual

def same : Form → Form → Bool
  | atom _ a, atom _ b => a.same b
  | sequence _ b xs, sequence _ c ys => b == c && sameAll xs ys
  | marked _ m x, marked _ n y => m == n && same x y
  | _, _ => false

def sameAll : List Form → List Form → Bool
  | [], [] => true
  | x :: xs, y :: ys => same x y && sameAll xs ys
  | _, _ => false

end

mutual

def height : Form → Nat
  | atom .. => 1
  | sequence _ _ xs => heightAll xs + 1
  | marked _ _ x => height x + 1

def heightAll : List Form → Nat
  | [] => 0
  | x :: xs => max (height x) (heightAll xs)

end

mutual

def flatten : Form → List Lexeme
  | atom _ a => [.atom a]
  | sequence _ b xs => .opening b :: flattenAll xs ++ [.closing b]
  | marked _ m x => .mark m :: flatten x

def flattenAll : List Form → List Lexeme
  | [] => []
  | x :: xs => flatten x ++ flattenAll xs

end

def atomKind : Atom → Bytes
  | .nil => utf8 "nil"
  | .boolean _ => utf8 "boolean"
  | .number _ => utf8 "number"
  | .string _ => utf8 "string"
  | .symbol _ => utf8 "symbol"
  | .keyword _ => utf8 "keyword"
  | .interpolation _ => utf8 "interpolation"

end Form

def Bracket.kind : Bracket → Bytes
  | paren => utf8 "list"
  | square => utf8 "vector"
  | brace => utf8 "tuple"

def Mark.kind : Mark → Bytes
  | quote => utf8 "quote"
  | quasiquote => utf8 "quasiquote"
  | unquote => utf8 "unquote"
  | splice => utf8 "unquote-splicing"

def Form.kind : Form → Bytes
  | atom _ a => atomKind a
  | sequence _ b _ => b.kind
  | marked _ m _ => m.kind

end ClauseLisp
