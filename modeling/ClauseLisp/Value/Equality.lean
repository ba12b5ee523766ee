import ClauseLisp.Value

/-! Equality of values. Structural equality tells integers from floats; arithmetic equality compares
numbers by value. Maps are compared by looking up the keys of the first in the second. -/

namespace ClauseLisp.Value

def lookupBy (eq : Value → Value → Bool) (entries : List (Value × Value)) (key : Value) : Value :=
  ((entries.find? fun e => eq e.1 key).map (·.2)).getD nil

def pairwise (eq : Value → Value → Bool) : List Value → List Value → Bool
  | [], [] => true
  | x :: xs, y :: ys => eq x y && pairwise eq xs ys
  | _, _ => false

/-- Equality of the outermost layer, where `keyEq` compares the keys of maps and `eq` all other
parts. -/
def layerEqual (keyEq eq : Value → Value → Bool) : Value → Value → Bool
  | nil, nil => true
  | boolean a, boolean b => a == b
  | integer i, integer j => i == j
  | float d, float e => d.same e
  | string s, string t => s == t
  | tag a, tag b => a == b
  | list xs, list ys => pairwise eq xs ys
  | tuple xs, tuple ys => pairwise eq xs ys
  | map xs, map ys => xs.length == ys.length && xs.all fun e => eq (lookupBy keyEq ys e.1) e.2
  | procedure p, procedure q => p.identity == q.identity
  | _, _ => false

def equalWithin : Nat → Value → Value → Bool
  | 0, _, _ => false
  | n + 1, x, y => layerEqual (equalWithin n) (equalWithin n) x y

def equal (x y : Value) : Bool := equalWithin x.height x y

def lookup (entries : List (Value × Value)) (key : Value) : Value := lookupBy equal entries key

def numbersEqual? : Value → Value → Option Bool
  | integer i, integer j => some (i == j)
  | integer i, float e => some ((Binary64.ofInt i.toInt).same e)
  | float d, integer j => some (d.same (Binary64.ofInt j.toInt))
  | float d, float e => some (d.same e)
  | _, _ => none

def arithEqualWithin : Nat → Value → Value → Bool
  | 0, _, _ => false
  | n + 1, x, y =>
    match numbersEqual? x y with
    | some b => b
    | none => layerEqual equal (arithEqualWithin n) x y

def arithEqual (x y : Value) : Bool := arithEqualWithin x.height x y

end ClauseLisp.Value
