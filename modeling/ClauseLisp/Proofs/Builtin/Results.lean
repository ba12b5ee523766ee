import ClauseLisp.Builtin.Call

/-! What a call of a builtin procedure gives, where that depends on its arguments alone: the call
returns a value or raises a fault, and changes nothing. -/

namespace ClauseLisp

namespace Run

variable {α : Type} {x : Except Fault α}

theorem ofExcept_eq_pure_iff {a : α} : ofExcept x = pure a ↔ x = .ok a := by
  constructor
  · intro h
    have hfresh : ofExcept x World.fresh = (pure a : Run α) World.fresh := congrFun h _
    cases x with
    | ok b => exact congrArg Except.ok (Outcome.value.inj (Prod.mk.inj hfresh).1)
    | error f =>
      have hfault : Outcome.fault f = Outcome.value a := (Prod.mk.inj hfresh).1
      cases hfault
  · rintro rfl
    rfl

theorem ofExcept_eq_raise_iff {f : Fault} : ofExcept x = raise f ↔ x = .error f := by
  constructor
  · intro h
    have hfresh : ofExcept x World.fresh = (raise f : Run α) World.fresh := congrFun h _
    cases x with
    | ok a =>
      have hvalue : Outcome.value a = Outcome.fault f := (Prod.mk.inj hfresh).1
      cases hvalue
    | error e => exact congrArg Except.error (Outcome.fault.inj (Prod.mk.inj hfresh).1)
  · rintro rfl
    rfl

end Run

namespace Builtin

variable {b : Builtin} {args : List Value} {v v' : Value} {f f' : Fault}

/-- Calling the procedure with these arguments does nothing but return the value. -/
def Returns (b : Builtin) (args : List Value) (v : Value) : Prop :=
  ∀ call name, invoke call name b args = pure v

def Raises (b : Builtin) (args : List Value) (f : Fault) : Prop :=
  ∀ call name, invoke call name b args = Run.raise f

def OnlyComputes (b : Builtin) (args : List Value) : Prop :=
  ∀ call name, invoke call name b args = Run.ofExcept (b.compute args)

theorem OnlyComputes.returns_iff (h : b.OnlyComputes args) : b.Returns args v ↔ b.compute args = .ok v := by
  rw [← Run.ofExcept_eq_pure_iff]
  constructor
  · intro hreturns
    exact (h (fun _ _ => Run.exhaust) []).symm.trans (hreturns _ _)
  · intro hcompute call name
    exact (h call name).trans hcompute

theorem OnlyComputes.raises_iff (h : b.OnlyComputes args) : b.Raises args f ↔ b.compute args = .error f := by
  rw [← Run.ofExcept_eq_raise_iff]
  constructor
  · intro hraises
    exact (h (fun _ _ => Run.exhaust) []).symm.trans (hraises _ _)
  · intro hcompute call name
    exact (h call name).trans hcompute

theorem Returns.unique (h : b.Returns args v) (h' : b.Returns args v') : v = v' := by
  have hsame : (pure v : Run Value) = pure v' :=
    (h (fun _ _ => Run.exhaust) []).symm.trans (h' (fun _ _ => Run.exhaust) [])
  have hfresh := congrArg (fun run : Run Value => run World.fresh) hsame
  exact Outcome.value.inj (Prod.mk.inj hfresh).1

theorem Raises.unique (h : b.Raises args f) (h' : b.Raises args f') : f = f' := by
  have hsame : (Run.raise f : Run Value) = Run.raise f' :=
    (h (fun _ _ => Run.exhaust) []).symm.trans (h' (fun _ _ => Run.exhaust) [])
  have hfresh := congrArg (fun run : Run Value => run World.fresh) hsame
  exact Outcome.fault.inj (Prod.mk.inj hfresh).1

theorem Returns.not_raises (h : b.Returns args v) : ¬ b.Raises args f := by
  intro hraises
  have hsame : (pure v : Run Value) = Run.raise f :=
    (h (fun _ _ => Run.exhaust) []).symm.trans (hraises (fun _ _ => Run.exhaust) [])
  have hfresh := congrArg (fun run : Run Value => run World.fresh) hsame
  have hvalue : Outcome.value v = Outcome.fault f := (Prod.mk.inj hfresh).1
  cases hvalue

end Builtin
end ClauseLisp
