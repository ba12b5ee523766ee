import ClauseLisp.Comparing
import ClauseLisp.Value.Arithmetic
import ClauseLisp.Value.Equality

/-! Builtin procedures that call no other procedure. -/

namespace ClauseLisp.Builtin

open Value (expectInteger expectNumber expectString expectList expectMap)

def arity? : Builtin → Option Nat
  | hashMap => none
  | cons | nth | take | drop | append | map | filter | apply | compose | partialApply => some 2
  | range | repeated | zip | all | any | find | partition | interleave => some 2
  | power | maximum | minimum | gcd | get => some 2
  | foldLeft | foldRight | put => some 3
  | _ => some 1

/-- The absolute value of an integer, as an unsigned word: that of the least integer is no signed
one. -/
def magnitude (n : Int64) : UInt64 := if n < 0 then 0 - n.toUInt64 else n.toUInt64

def clampedCount (xs : List Value) (n : Int64) : Nat := min (magnitude n).toNat xs.length

/-- A negative count takes from the end. -/
def takeCount (xs : List Value) (n : Int64) : List Value :=
  if 0 ≤ n then xs.take (clampedCount xs n) else xs.drop (xs.length - clampedCount xs n)

def dropCount (xs : List Value) (n : Int64) : List Value :=
  if 0 ≤ n then xs.drop (clampedCount xs n) else xs.take (xs.length - clampedCount xs n)

def nthElement (xs : List Value) (n : Int64) : Except Fault Value :=
  if n < 0 then .error (.negativeIndex n) else .ok (xs.getD n.toInt.toNat .nil)

def nextCount? (upward : Bool) (stop i : Int64) : Option Int64 :=
  if i = stop then none else some (if upward then i + 1 else i - 1)

def countsLeft (upward : Bool) (stop i : Int64) : Nat :=
  (if upward then stop - i else i - stop).toBitVec.toNat

theorem countsLeft_lt {upward : Bool} {stop i j : Int64}
    (h : nextCount? upward stop i = some j) :
    countsLeft upward stop j < countsLeft upward stop i := by
  have hone : (1 : Int64).toBitVec = 1#64 := rfl
  unfold nextCount? at h
  split at h
  · cases h
  · rename_i hne
    obtain rfl := Option.some.inj h
    have hbits : i.toBitVec ≠ stop.toBitVec := fun hbits => hne (Int64.toBitVec_inj.mp hbits)
    cases upward with
    | false =>
      simp only [countsLeft, Bool.false_eq_true, if_false, Int64.toBitVec_sub, hone]
      bv_omega
    | true =>
      simp only [countsLeft, if_true, Int64.toBitVec_sub, Int64.toBitVec_add, hone]
      bv_omega

def countFrom (upward : Bool) (stop i : Int64) (counted : Array Value) : Array Value :=
  match h : nextCount? upward stop i with
  | none => counted.push (.integer i)
  | some j =>
    have := countsLeft_lt h
    countFrom upward stop j (counted.push (.integer i))
termination_by countsLeft upward stop i

/-- All integers from `a` to `b`, both included, upward or downward. -/
def rangeOf (a b : Int64) : List Value := (countFrom (a ≤ b) b a #[]).toList

def longestList : Int := (Int.pow 2 63 - 1) / 40

def repeatedValue (v : Value) (n : Int64) : Except Fault Value :=
  if n < 0 then .error (.negativeCount n)
  else if longestList < n.toInt then .error .listTooLong
  else .ok (.list (List.replicate n.toInt.toNat v))

mutual

def flattenValue : Value → List Value
  | .list xs => flattenAll xs
  | v => [v]

def flattenAll : List Value → List Value
  | [] => []
  | x :: xs => flattenValue x ++ flattenAll xs

end

def distinctFrom (seen : List Value) : List Value → List Value
  | [] => seen
  | x :: xs => distinctFrom (if seen.any (x.equal ·) then seen else seen ++ [x]) xs

def precedes (x y : Value) : Except Fault Bool := do return (← x.order y) = .lt

def sorted (xs : List Value) : Except Fault (List Value) := (Comparing.sort xs).run precedes

def interleaved : List Value → List Value → List Value
  | [], ys => ys
  | xs, [] => xs
  | x :: xs, y :: ys => x :: y :: interleaved xs ys

def foldValues (f : Value → Value → Except Fault Value) : Value → List Value → Except Fault Value
  | v, [] => .ok v
  | v, x :: xs => do foldValues f (← f v x) xs

theorem toNat_mod_lt (a : UInt64) {b : UInt64} (h : b ≠ 0) : (a % b).toNat < b.toNat := by
  have hb : b.toNat ≠ 0 := fun hzero => h (UInt64.toNat_inj.mp hzero)
  rw [UInt64.toNat_mod]
  exact Nat.mod_lt _ (Nat.pos_of_ne_zero hb)

def euclid (a b : UInt64) : UInt64 :=
  if h : b = 0 then a
  else
    have := toNat_mod_lt a h
    euclid b (a % b)
termination_by b.toNat

def gcdOf (x y : Int64) : Except Fault Value :=
  let d := euclid (magnitude x) (magnitude y)
  if Int64.maxValue.toUInt64 < d then .error .integerOverflow else .ok (.integer d.toInt64)

def squareRootOf (d : Binary64) : Except Fault Value :=
  if d.less .zero then .error (.negativeRoot d) else .ok (.float (.ofFloat d.toFloat.sqrt))

def absoluteOf : Value → Except Fault Value
  | .float d => .ok (.float (.ofMagnitude false d.magnitude))
  | v => do
    let i ← v.expectInteger
    if i < 0 then v.negate else return v

/-- The greater of two values, the first of equals. -/
def maximumOf (x y : Value) : Except Fault Value := do
  return if (← x.order y) = .lt then y else x

def minimumOf (x y : Value) : Except Fault Value := do
  return if (← y.order x) = .lt then y else x

def integerOf : Value → Except Fault Value
  | .string s =>
    match (Integer.ofText? s).bind Integer.fit? with
    | some i => .ok (.integer i)
    | none => .error (.invalidInteger s)
  | .float d =>
    match if d.isFinite then Integer.fit? d.truncate else none with
    | some i => .ok (.integer i)
    | none => .error (.integerRange d)
  | v => do return .integer (← v.expectInteger)

def floatOf : Value → Except Fault Value
  | .string s =>
    match Binary64.ofGeneralText? s with
    | some d => .ok (.float d)
    | none => .error (.invalidFloat s)
  | v => do return .float (← v.expectNumber)

/-- The number of code points: all bytes but the continuation bytes. -/
def codePoints (s : Bytes) : Nat := s.countP fun c => c &&& 0xc0 != 0x80

def putEntry : List (Value × Value) → Value → Value → List (Value × Value)
  | [], key, v => [(key, v)]
  | (k, u) :: es, key, v => if k.equal key then (k, v) :: es else (k, u) :: putEntry es key v

def putPairs : List (Value × Value) → List Value → List (Value × Value)
  | es, key :: v :: more => putPairs (putEntry es key v) more
  | es, _ => es

def hashMapOf (args : List Value) : Except Fault Value :=
  if args.length % 2 = 0 then .ok (.map (putPairs [] args)) else .error (.oddEntries args.length)

def getFrom (container key : Value) : Except Fault Value :=
  match container with
  | .nil => .ok .nil
  | _ => do return Value.lookup (← container.expectMap) key

def compute : Builtin → List Value → Except Fault Value
  | first, [v] => v.head
  | rest, [v] => v.tail
  | cons, [x, v] => x.cons v
  | second, [v] => do (← v.tail).head
  | third, [v] => do (← (← v.tail).tail).head
  | nth, [v, n] => do nthElement (← expectList v) (← expectInteger n)
  | take, [v, n] => do return .list (takeCount (← expectList v) (← expectInteger n))
  | drop, [v, n] => do return .list (dropCount (← expectList v) (← expectInteger n))
  | last, [v] => do return (← expectList v).getLastD .nil
  | reverse, [v] => do return .list (← expectList v).reverse
  | append, [v, u] => do return .list ((← expectList v) ++ (← expectList u))
  | length, [v] => do return .ofNat (← expectList v).length
  | identity, [v] => .ok v
  | range, [a, b] => do return .list (rangeOf (← expectInteger a) (← expectInteger b))
  | repeated, [v, n] => do repeatedValue v (← expectInteger n)
  | zip, [v, u] => do
    return .list (((← expectList v).zip (← expectList u)).map fun (x, y) => .tuple [x, y])
  | flatten, [v] => do return .list (flattenAll (← expectList v))
  | distinct, [v] => do return .list (distinctFrom [] (← expectList v))
  | sort, [v] => do return .list (← sorted (← expectList v))
  | interleave, [v, u] => do return .list (interleaved (← expectList v) (← expectList u))
  | sum, [v] => do foldValues Value.add (.ofNat 0) (← expectList v)
  | product, [v] => do foldValues Value.multiply (.ofNat 1) (← expectList v)
  | increment, [v] => v.add (.ofNat 1)
  | decrement, [v] => v.subtract (.ofNat 1)
  | square, [v] => v.multiply v
  | cube, [v] => do (← v.multiply v).multiply v
  | power, [v, u] => do
    return .float (.ofFloat ((← expectNumber v).toFloat.pow (← expectNumber u).toFloat))
  | squareRoot, [v] => do squareRootOf (← expectNumber v)
  | absolute, [v] => absoluteOf v
  | maximum, [x, y] => maximumOf x y
  | minimum, [x, y] => minimumOf x y
  | gcd, [a, b] => do gcdOf (← expectInteger a) (← expectInteger b)
  | isEven, [v] => do return .boolean ((← expectInteger v).toInt % 2 = 0)
  | isOdd, [v] => do return .boolean ((← expectInteger v).toInt % 2 ≠ 0)
  | isZero, [v] => do return .boolean (← expectNumber v).isZero
  | isPositive, [v] => do return .boolean (Binary64.zero.less (← expectNumber v))
  | isNegative, [v] => do return .boolean ((← expectNumber v).less .zero)
  | isFunction, [v] => .ok (.boolean (v.kind = .procedure))
  | isNil, [v] => .ok (.boolean (v.kind = .nil))
  | isEmpty, [v] => do return .boolean (← v.isEmpty)
  | isList, [v] => .ok (.boolean (v.kind = .list))
  | isAtom, [v] => .ok (.boolean v.isAtom)
  | isNumber, [v] => .ok (.boolean v.isNumber)
  | isString, [v] => .ok (.boolean (v.kind = .string))
  | toText, [v] => .ok (.string v.display)
  | toInteger, [v] => integerOf v
  | toFloat, [v] => floatOf v
  | textLength, [v] => do return .ofNat (codePoints (← expectString v))
  | hashMap, args => hashMapOf args
  | get, [m, key] => getFrom m key
  | put, [m, key, v] => do return .map (putEntry (← expectMap m) key v)
  | keys, [m] => do return .list ((← expectMap m).map (·.1))
  | _, _ => .error .malformed

end ClauseLisp.Builtin
