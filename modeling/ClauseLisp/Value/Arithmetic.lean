import ClauseLisp.Fault

/-! Arithmetic and order of values. Integer results are exact or an overflow; an operation with a
double on either side is done on doubles. -/

namespace ClauseLisp.Value

def expectInteger : Value → Except Fault Int64
  | integer i => .ok i
  | v => .error (.wrongType .integer v.kind)

def expectNumber : Value → Except Fault Binary64
  | integer i => .ok (Binary64.ofInt i.toInt)
  | float d => .ok d
  | v => .error (.wrongType .float v.kind)

def expectString : Value → Except Fault Bytes
  | string s => .ok s
  | v => .error (.wrongType .string v.kind)

def expectList : Value → Except Fault (List Value)
  | list xs => .ok xs
  | v => .error (.wrongType .list v.kind)

def expectMap : Value → Except Fault (List (Value × Value))
  | map es => .ok es
  | v => .error (.wrongType .map v.kind)

def expectProcedure : Value → Except Fault Procedure
  | procedure p => .ok p
  | v => .error (.wrongType .procedure v.kind)

def isNumber : Value → Bool
  | integer _ => true
  | float _ => true
  | _ => false

def ofNat (n : Nat) : Value := integer (.ofNat n)

def exact (i : Int) : Except Fault Value :=
  match Integer.fit? i with
  | some i => .ok (integer i)
  | none => .error .integerOverflow

def arithmetic (onIntegers : Int → Int → Int) (onFloats : Binary64 → Binary64 → Binary64)
    (x y : Value) : Except Fault Value :=
  match x, y with
  | integer i, integer j => exact (onIntegers i.toInt j.toInt)
  | _, _ => do return float (onFloats (← expectNumber x) (← expectNumber y))

def add (x y : Value) : Except Fault Value := arithmetic (· + ·) Binary64.add x y

def subtract (x y : Value) : Except Fault Value := arithmetic (· - ·) Binary64.sub x y

def multiply (x y : Value) : Except Fault Value := arithmetic (· * ·) Binary64.mul x y

/-- Division is always done on doubles. -/
def divide (x y : Value) : Except Fault Value := do
  let n ← expectNumber x
  let d ← expectNumber y
  if d.isZero then throw .divisionByZero
  return float (n.div d)

/-- The remainder has the sign of the first operand. -/
def remainder (x y : Value) : Except Fault Value := do
  let i ← expectInteger x
  let j ← expectInteger y
  if j = 0 then throw .divisionByZero
  exact (i.toInt.tmod j.toInt)

def negate : Value → Except Fault Value
  | integer i => exact (-i.toInt)
  | float d => .ok (float d.neg)
  | v => .error (.wrongType .float v.kind)

/-- The order of two doubles; a NaN is in no order with anything. -/
def orderFloats (d e : Binary64) : Ordering :=
  if d.less e then .lt else if e.less d then .gt else .eq

def order (x y : Value) : Except Fault Ordering :=
  match x, y with
  | integer i, integer j => .ok (compare i.toInt j.toInt)
  | integer i, float e => .ok (orderFloats (Binary64.ofInt i.toInt) e)
  | float d, integer j => .ok (orderFloats d (Binary64.ofInt j.toInt))
  | float d, float e => .ok (orderFloats d e)
  | string s, _ => do return s.order (← y.expectString)
  | _, _ =>
    if x.isNumber then .error (.incomparable x.kind y.kind) else .error (.unordered x.kind)

def head (v : Value) : Except Fault Value := do return (← v.expectList).headD nil

def tail (v : Value) : Except Fault Value := do return list (← v.expectList).tail

def cons (x : Value) : Value → Except Fault Value
  | nil => .ok (list [x])
  | v => do return list (x :: (← v.expectList))

def isEmpty : Value → Except Fault Bool
  | nil => .ok true
  | list xs => .ok xs.isEmpty
  | string s => .ok s.isEmpty
  | tuple xs => .ok xs.isEmpty
  | v => do return (← v.expectMap).isEmpty

def isAtom : Value → Bool
  | nil => true
  | boolean _ => true
  | tag _ => true
  | _ => false

end ClauseLisp.Value
