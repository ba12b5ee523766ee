import ClauseLisp.Number.Binary64

/-! Decimal text of double precision numbers. The short text has the fewest digits that read back
as the number; the written text is never in exponent notation and always shows a period. -/

namespace ClauseLisp.Binary64

/-- Digits `d₁ d₂ … dₙ` with the value `d₁.d₂…dₙ * 10 ^ exponent`. -/
structure Scientific where
  digits : Bytes
  exponent : Int

def leadingPower (n d : Nat) : Int :=
  if d ≤ n then (Bytes.decimal (n / d)).length - 1
  else
    let k := (Bytes.decimal (d / n)).length
    if d = n * Nat.pow 10 (k - 1) then 1 - k else -k

/-- A decimal with `count` digits that reads back as the number. Of its two neighbours on that grid
the nearer one is tried first, the even one between equals. -/
def roundTrip? (d : Binary64) (count : Nat) : Option (Nat × Int) :=
  let (n, m) := d.fraction
  let power := leadingPower n m - count + 1
  let num := n * Nat.pow 10 (-power).toNat
  let den := m * Nat.pow 10 power.toNat
  let readsBack (c : Nat) : Bool := ofDecimal d.isNegative c power = d
  ([roundDiv num den, num / den, num / den + 1].find? readsBack).map (·, power)

def shortest (d : Binary64) : Scientific :=
  let (c, power) := ((List.range' 1 17).findSome? d.roundTrip?).getD (0, 0)
  let digits := Bytes.decimal c
  let kept := (digits.reverse.dropWhile (· = byte '0')).reverse
  ⟨kept, power + digits.length - 1⟩

namespace Scientific

def isPositional (x : Scientific) : Bool := -4 ≤ x.exponent && x.exponent < 16

def positional (x : Scientific) : Bytes :=
  let whole := (x.exponent + 1).toNat
  if x.exponent < 0 then
    utf8 "0." ++ List.replicate (-x.exponent - 1).toNat (byte '0') ++ x.digits
  else if x.digits.length ≤ whole then
    x.digits ++ List.replicate (whole - x.digits.length) (byte '0')
  else x.digits.take whole ++ utf8 "." ++ x.digits.drop whole

def withExponent (x : Scientific) : Bytes :=
  let e := Bytes.decimal x.exponent.natAbs
  x.digits.take 1 ++ (if x.digits.length ≤ 1 then [] else utf8 "." ++ x.digits.drop 1) ++
    utf8 (if x.exponent < 0 then "e-" else "e+") ++
    (if e.length < 2 then utf8 "0" else []) ++ e

end Scientific

def signText (d : Binary64) : Bytes := if d.isNegative then utf8 "-" else []

def specialText? (d : Binary64) : Option Bytes :=
  if d.isNaN then some (utf8 "nan")
  else if !d.isFinite then some (d.signText ++ utf8 "inf")
  else if d.isZero then some (d.signText ++ utf8 "0")
  else none

def shortText (d : Binary64) : Bytes :=
  match d.specialText? with
  | some t => t
  | none =>
    let x := d.shortest
    d.signText ++ if x.isPositional then x.positional else x.withExponent

def fixedText (d : Binary64) (places : Nat) : Bytes :=
  let (n, m) := d.fraction
  let digits := Bytes.decimal (roundDiv (n * Nat.pow 10 places) m)
  let padded := List.replicate (places + 1 - digits.length) (byte '0') ++ digits
  let whole := padded.length - places
  d.signText ++ padded.take whole ++ utf8 "." ++ padded.drop whole

def text (d : Binary64) : Bytes :=
  if !d.isFinite then d.shortText
  else if d.isZero then d.shortText ++ utf8 ".0"
  else
    let x := d.shortest
    if !x.isPositional then d.fixedText (max 1 (x.digits.length - 1 - x.exponent)).toNat
    else if x.digits.length ≤ (x.exponent + 1).toNat then d.signText ++ x.positional ++ utf8 ".0"
    else d.signText ++ x.positional

end ClauseLisp.Binary64
