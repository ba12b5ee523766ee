import ClauseLisp.Fault
import ClauseLisp.World

/-! Computations in a world. What they did to the world stays done when they end with a fault. A
computation that is given too little fuel is exhausted, which is not a fault. -/

namespace ClauseLisp

inductive Outcome (α : Type) where
  | value (a : α)
  | fault (f : Fault)
  | exhausted

def Run (α : Type) : Type := World → Outcome α × World

namespace Run

variable {α β : Type}

@[always_inline, inline] protected def pure (a : α) : Run α := fun w => (.value a, w)

@[always_inline, inline] protected def bind (x : Run α) (f : α → Run β) : Run β := fun w =>
  match x w with
  | (.value a, w) => f a w
  | (.fault e, w) => (.fault e, w)
  | (.exhausted, w) => (.exhausted, w)

instance : Monad Run where
  pure := Run.pure
  bind := Run.bind

@[inline] def raise (f : Fault) : Run α := fun w => (.fault f, w)

@[inline] def exhaust : Run α := fun w => (.exhausted, w)

@[inline] def ofExcept (x : Except Fault α) : Run α := fun w =>
  match x with
  | .ok a => (.value a, w)
  | .error f => (.fault f, w)

@[inline] def look (f : World → α) : Run α := fun w => (.value (f w), w)

@[inline] def change (f : World → World) : Run Unit := fun w => (.value (), f w)

def freshId : Run Nat := fun w => (.value w.made, { w with made := w.made + 1 })

@[inline] def catching (x : Run α) (handle : Fault → Run α) : Run α := fun w =>
  match x w with
  | (.fault f, w) => handle f w
  | r => r

def forEach (f : α → Run β) : List α → Run (List β)
  | [] => pure []
  | x :: xs => do
    let y ← f x
    let ys ← forEach f xs
    return y :: ys

def foldLeft (f : β → α → Run β) : β → List α → Run β
  | b, [] => pure b
  | b, x :: xs => do foldLeft f (← f b x) xs

/-- The first element the test accepts; no later one is tested. -/
def findFirst (test : α → Run Bool) : List α → Run (Option α)
  | [] => pure none
  | x :: xs => do
    if ← test x then return some x
    else findFirst test xs

def splitBy (test : α → Run Bool) : List α → Run (List α × List α)
  | [] => pure ([], [])
  | x :: xs => do
    let accepted ← test x
    let (yes, no) ← splitBy test xs
    return if accepted then (x :: yes, no) else (yes, x :: no)

end Run
end ClauseLisp
