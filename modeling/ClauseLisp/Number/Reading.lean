import ClauseLisp.Number.Binary64

/-! Reading numbers from text. A whole text is read or refused, and what is read is exact for
integers and correctly rounded for doubles. -/

namespace ClauseLisp

def splitSign : Bytes → Bool × Bytes
  | [] => (false, [])
  | c :: s => if c = byte '-' then (true, s) else (false, c :: s)

namespace Integer

def minimum : Int := -Int.pow 2 63

def maximum : Int := Int.pow 2 63 - 1

def fit? (i : Int) : Option Int64 :=
  if minimum ≤ i ∧ i ≤ maximum then some (Int64.ofInt i) else none

def ofText? (s : Bytes) : Option Int :=
  let (negative, digits) := splitSign s
  if digits ≠ [] ∧ digits.all Bytes.isDigit then
    some (if negative then -(Bytes.digitsValue digits : Int) else Bytes.digitsValue digits)
  else none

end Integer

namespace Binary64

def ofDecimal? (negative : Bool) (digits : Nat) (exponent : Int) : Option Binary64 :=
  -- Far outside the range nothing has to be computed to see that.
  let reach := (Bytes.decimal digits).length + exponent
  if digits = 0 then some (ofMagnitude negative 0)
  else if reach < -400 ∨ 400 < reach then none
  else
    let d := ofDecimal negative digits exponent
    if d.isFinite && !d.isZero then some d else none

def exponentOfText? : Bytes → Option Int
  | [] => some 0
  | e :: s =>
    if e ≠ byte 'e' ∧ e ≠ byte 'E' then none
    else
      match s with
      | [] => none
      | c :: t => Integer.ofText? (if c = byte '+' ∧ t.head? ≠ some (byte '-') then t else c :: t)

def ofUnsignedText? (allowExponent negative : Bool) (s : Bytes) : Option Binary64 :=
  let whole := s.takeWhile Bytes.isDigit
  let rest := s.dropWhile Bytes.isDigit
  let (places, rest) :=
    match rest with
    | [] => ([], [])
    | c :: t =>
      if c = byte '.' then (t.takeWhile Bytes.isDigit, t.dropWhile Bytes.isDigit) else ([], c :: t)
  if whole ++ places = [] then none
  else if !allowExponent && rest ≠ [] then none
  else do
    let e ← exponentOfText? rest
    ofDecimal? negative (Bytes.digitsValue (whole ++ places)) (e - places.length)

def ofFixedText? (s : Bytes) : Option Binary64 :=
  let (negative, t) := splitSign s
  ofUnsignedText? false negative t

def lowerByte (c : UInt8) : UInt8 := if byte 'A' ≤ c ∧ c ≤ byte 'Z' then c + 32 else c

def isWordByte (c : UInt8) : Bool :=
  Bytes.isDigit c || (byte 'a' ≤ lowerByte c && lowerByte c ≤ byte 'z') || c == byte '_'

def isPayload : Bytes → Bool
  | [] => true
  | c :: s => c == byte '(' && s.dropWhile isWordByte == utf8 ")"

def nonFiniteOfText? (negative : Bool) (s : Bytes) : Option Binary64 :=
  let word := s.map lowerByte
  if word = utf8 "inf" ∨ word = utf8 "infinity" then some (ofMagnitude negative infinityMagnitude)
  else if word.take 3 = utf8 "nan" ∧ isPayload (s.drop 3) then
    some (ofMagnitude negative (infinityMagnitude + Nat.pow 2 51))
  else none

/-- Any number: a literal with or without period and exponent, an infinity or a NaN. -/
def ofGeneralText? (s : Bytes) : Option Binary64 :=
  let (negative, t) := splitSign s
  (nonFiniteOfText? negative t).or (ofUnsignedText? true negative t)

end Binary64
end ClauseLisp
