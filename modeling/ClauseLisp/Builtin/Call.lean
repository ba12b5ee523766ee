import ClauseLisp.Builtin.Compute
import ClauseLisp.Run

/-! Builtin procedures that call the procedures they are given, or make new ones. -/

namespace ClauseLisp.Builtin

abbrev Caller := Procedure → List Value → Run Value

def procedure (v : Value) : Run Procedure := .ofExcept v.expectProcedure

def elements (v : Value) : Run (List Value) := .ofExcept v.expectList

def accepts (call : Caller) (p : Procedure) (x : Value) : Run Bool := do
  return (← call p [x]).truthy

def combine (call : Caller) (p : Procedure) (acc x : Value) : Run Value := call p [x, acc]

def newProcedure (make : Nat → Procedure) : Run Value := do
  return .procedure (make (← Run.freshId))

def perform (call : Caller) : Builtin → List Value → Run Value
  | map, [f, xs] => do
    let p ← procedure f
    return .list (← Run.forEach (fun x => call p [x]) (← elements xs))
  | filter, [f, xs] => do
    let p ← procedure f
    return .list (← Run.splitBy (accepts call p) (← elements xs)).1
  | partition, [f, xs] => do
    let p ← procedure f
    let (yes, no) ← Run.splitBy (accepts call p) (← elements xs)
    return .list [.list yes, .list no]
  | foldLeft, [f, initial, xs] => do
    let p ← procedure f
    Run.foldLeft (combine call p) initial (← elements xs)
  | foldRight, [f, initial, xs] => do
    let p ← procedure f
    Run.foldLeft (combine call p) initial (← elements xs).reverse
  | apply, [f, xs] => do
    let p ← procedure f
    call p (← elements xs)
  | all, [f, xs] => do
    let p ← procedure f
    let refused ← Run.findFirst (fun x => do return !(← accepts call p x)) (← elements xs)
    return .boolean refused.isNone
  | any, [f, xs] => do
    let p ← procedure f
    let accepted ← Run.findFirst (accepts call p) (← elements xs)
    return .boolean accepted.isSome
  | find, [f, xs] => do
    let p ← procedure f
    let accepted ← Run.findFirst (accepts call p) (← elements xs)
    return accepted.getD .nil
  | compose, [f, g] => do
    let p ← procedure f
    let q ← procedure g
    newProcedure (.composition · p q)
  | partialApply, [f, x] => do
    let p ← procedure f
    newProcedure (.partialApplication · p x)
  | constantly, [x] => newProcedure (.constant · x)
  | b, args => .ofExcept (b.compute args)

def invoke (call : Caller) (name : Bytes) (b : Builtin) (args : List Value) : Run Value :=
  match b.arity? with
  | none => b.perform call args
  | some n =>
    if args.length = n then b.perform call args
    else .raise (.argumentCount name n args.length)

end ClauseLisp.Builtin
