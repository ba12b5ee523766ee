/-! Byte strings. Source text, names and printed text are sequences of bytes; a Lean string enters
them through its UTF-8 encoding. -/

namespace ClauseLisp

abbrev Bytes := List UInt8

def utf8 (s : String) : Bytes := s.toList.flatMap String.utf8EncodeChar

def byte (c : Char) : UInt8 := c.toUInt8

namespace Bytes

def decimal (n : Nat) : Bytes := (Nat.toDigits 10 n).map Char.toUInt8

def signedDecimal : Int → Bytes
  | .ofNat n => decimal n
  | .negSucc n => byte '-' :: decimal (n + 1)

def isDigit (c : UInt8) : Bool := byte '0' ≤ c && c ≤ byte '9'

def digitsValue (s : Bytes) : Nat :=
  s.foldl (fun n c => 10 * n + (c.toNat - (byte '0').toNat)) 0

def hexByte (c : UInt8) : Bytes :=
  [c.toNat / 16, c.toNat % 16].map fun n => (Nat.digitChar n).toUInt8

def padding (n : Nat) : Bytes := List.replicate n (byte ' ')

/-- Messages end before their first zero byte. -/
def untilZero (s : Bytes) : Bytes := s.takeWhile (· ≠ 0)

def order (a b : Bytes) : Ordering := if a < b then .lt else if b < a then .gt else .eq

end Bytes
end ClauseLisp
