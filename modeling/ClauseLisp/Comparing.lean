/-! Computations that learn of their elements only by asking which of two comes first, and a stable
sort as such a computation. -/

namespace ClauseLisp

inductive Comparing (α β : Type) where
  | done (result : β)
  /-- Goes on with whether `x` comes before `y`. -/
  | ask (x y : α) (next : Bool → Comparing α β)

namespace Comparing

variable {α β γ ε : Type}

def bind : Comparing α β → (β → Comparing α γ) → Comparing α γ
  | done b, f => f b
  | ask x y next, f => ask x y fun before => (next before).bind f

instance : Monad (Comparing α) where
  pure := done
  bind := bind

def before (x y : α) : Comparing α Bool := ask x y done

def run (before : α → α → Except ε Bool) : Comparing α β → Except ε β
  | done b => .ok b
  | ask x y next =>
    match before x y with
    | .ok answer => (next answer).run before
    | .error e => .error e

/-- The elements of two sorted lists in order, those of the first one before equal ones of the
second. Backward, lists and result begin with their last elements. -/
def merge (backward : Bool) : List α → List α → Comparing α (List α)
  | [], ys => return ys
  | xs, [] => return xs
  | x :: xs, y :: ys => do
    if (← before y x) = backward then return x :: (← merge backward xs (y :: ys))
    else return y :: (← merge backward (x :: xs) ys)

def mergeFromEnd (xs ys : List α) : Comparing α (List α) := do
  return (← merge true xs.reverse ys.reverse).reverse

def insert (x : α) : List α → Comparing α (List α)
  | [] => return [x]
  | y :: ys => do
    if ← before x y then return x :: y :: ys
    else mergeFromEnd (y :: ys) [x]

def insertAll : List α → List α → Comparing α (List α)
  | sorted, [] => return sorted
  | sorted, x :: xs => do insertAll (← insert x sorted) xs

def runLength : Nat := 7

theorem length_drop_runLength_lt (x : α) (xs : List α) :
    ((x :: xs).drop runLength).length < (x :: xs).length := by
  rw [List.length_drop, List.length_cons, runLength]
  omega

def sortRuns : List α → Comparing α (List (List α))
  | [] => return []
  | x :: xs => do
    let first ← insertAll [] ((x :: xs).take runLength)
    return first :: (← sortRuns ((x :: xs).drop runLength))
termination_by xs => xs.length
decreasing_by exact length_drop_runLength_lt x xs

def mergePairs : List (List α) → Comparing α (List (List α))
  | xs :: ys :: runs => do
    let merged ← merge false xs ys
    return merged :: (← mergePairs runs)
  | runs => return runs

def mergeRuns (length step : Nat) (runs : List (List α)) : Comparing α (List α) :=
  if 0 < step ∧ step < length then do mergeRuns length (2 * step) (← mergePairs runs)
  else return runs.flatten
termination_by length - step

def sortByRuns (xs : List α) : Comparing α (List α) := do
  mergeRuns xs.length runLength (← sortRuns xs)

/-- Sorts the halves and merges them, from the end if the first one is longer. -/
def sort (xs : List α) : Comparing α (List α) := do
  let half := (xs.length + 1) / 2
  let left ← sortByRuns (xs.take half)
  let right ← sortByRuns (xs.drop half)
  if half ≤ xs.length - half then merge false left right else mergeFromEnd left right

end Comparing
end ClauseLisp
