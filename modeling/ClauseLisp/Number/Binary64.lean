import ClauseLisp.Bytes

/-! Double precision numbers, given by their bits. Comparison and conversion from exact rationals
are computed on the bits; the four operations and the roots are those of the machine. -/

namespace ClauseLisp

structure Binary64 where
  bits : UInt64
deriving DecidableEq, Inhabited

namespace Binary64

def infinityMagnitude : Nat := 0x7ff0000000000000

def isNegative (d : Binary64) : Bool := Nat.pow 2 63 ≤ d.bits.toNat

def magnitude (d : Binary64) : Nat := d.bits.toNat % Nat.pow 2 63

def ofMagnitude (negative : Bool) (m : Nat) : Binary64 :=
  ⟨UInt64.ofNat ((if negative then Nat.pow 2 63 else 0) + m)⟩

def isNaN (d : Binary64) : Bool := infinityMagnitude < d.magnitude

def isFinite (d : Binary64) : Bool := d.magnitude < infinityMagnitude

def isZero (d : Binary64) : Bool := d.magnitude = 0

/-- The place of a number among all others, both zeros at 0. -/
def rank (d : Binary64) : Int := if d.isNegative then -d.magnitude else d.magnitude

def same (a b : Binary64) : Bool := !a.isNaN && !b.isNaN && a.rank == b.rank

def less (a b : Binary64) : Bool := !a.isNaN && !b.isNaN && decide (a.rank < b.rank)

def significand (d : Binary64) : Nat :=
  if d.magnitude < Nat.pow 2 52 then d.magnitude
  else d.magnitude % Nat.pow 2 52 + Nat.pow 2 52

def exponent (d : Binary64) : Int := (max (d.magnitude / Nat.pow 2 52) 1 : Nat) - 1075

def fraction (d : Binary64) : Nat × Nat :=
  (d.significand * Nat.pow 2 d.exponent.toNat, Nat.pow 2 (-d.exponent).toNat)

def roundDiv (n d : Nat) : Nat :=
  let q := n / d
  let twice := 2 * (n % d)
  if twice < d then q else if d < twice then q + 1 else q + q % 2

/-- The power of two of the last place kept for `n / d`: 53 places, and none below `2 ^ -1074`. -/
def lastPlace (n d : Nat) : Int :=
  let k : Int := n.log2 - d.log2
  let top := if d * Nat.pow 2 k.toNat ≤ n * Nat.pow 2 (-k).toNat then k else k - 1
  max (top - 52) (-1074)

/-- The number nearest to `n / d`, with an even significand between two; infinity from
`2 ^ 1024 - 2 ^ 970` on. -/
def ofRatio (negative : Bool) (n d : Nat) : Binary64 :=
  if n = 0 then ofMagnitude negative 0
  else
    let place := lastPlace n d
    let q := roundDiv (n * Nat.pow 2 (-place).toNat) (d * Nat.pow 2 place.toNat)
    ofMagnitude negative (min ((place + 1074).toNat * Nat.pow 2 52 + q) infinityMagnitude)

def ofInt (i : Int) : Binary64 := ofRatio (i < 0) i.natAbs 1

def ofDecimal (negative : Bool) (digits : Nat) (exponent : Int) : Binary64 :=
  ofRatio negative (digits * Nat.pow 10 exponent.toNat) (Nat.pow 10 (-exponent).toNat)

def toFloat (d : Binary64) : Float := Float.ofBits d.bits

def ofFloat (x : Float) : Binary64 := ⟨x.toBits⟩

def zero : Binary64 := ⟨0⟩

def add (a b : Binary64) : Binary64 := ofFloat (a.toFloat + b.toFloat)

def sub (a b : Binary64) : Binary64 := ofFloat (a.toFloat - b.toFloat)

def mul (a b : Binary64) : Binary64 := ofFloat (a.toFloat * b.toFloat)

def div (a b : Binary64) : Binary64 := ofFloat (a.toFloat / b.toFloat)

def neg (a : Binary64) : Binary64 := ofMagnitude (!a.isNegative) a.magnitude

def truncate (d : Binary64) : Int :=
  let (n, m) := d.fraction
  if d.isNegative then -((n / m : Nat) : Int) else (n / m : Nat)

end Binary64
end ClauseLisp
