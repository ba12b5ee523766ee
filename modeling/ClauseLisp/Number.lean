import ClauseLisp.Number.Decimal
import ClauseLisp.Number.Reading

/-! Numbers of programs: 64-bit integers and doubles. -/

namespace ClauseLisp

inductive Number where
  | integer (i : Int64)
  | float (d : Binary64)
deriving DecidableEq, Inhabited

namespace Number

def text : Number → Bytes
  | integer i => Bytes.signedDecimal i.toInt
  | float d => d.text

def shortText : Number → Bytes
  | integer i => Bytes.signedDecimal i.toInt
  | float d => d.shortText

def same : Number → Number → Bool
  | integer i, integer j => i == j
  | float d, float e => d.same e
  | _, _ => false

end Number
end ClauseLisp
