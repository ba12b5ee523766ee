import ClauseLisp.Proofs.Machine.Fuel

/-! How tasks end. A task ends with an outcome if it is performed to that outcome with some fuel,
and then it is with any fuel from some point on. -/

namespace ClauseLisp

namespace Outcome

variable {α : Type}

def ofExcept : Except Fault α → Outcome α
  | .ok a => .value a
  | .error f => .fault f

theorem ofExcept_ne_exhausted (x : Except Fault α) : ofExcept x ≠ .exhausted := by
  cases x <;> nofun

end Outcome

theorem Run.ofExcept_apply {α : Type} (x : Except Fault α) (w : World) :
    Run.ofExcept x w = (.ofExcept x, w) := by
  cases x <;> rfl

namespace Task

open Machine (perform step)

variable {limit : Nat} {task : Task} {w w' : World} {o : Outcome Value}

def Ends (limit : Nat) (task : Task) (w : World) (o : Outcome Value) (w' : World) : Prop :=
  o ≠ .exhausted ∧ ∃ fuel, perform limit fuel task w = (o, w')

theorem Ends.eventually (h : task.Ends limit w o w') :
    ∃ n, ∀ fuel, n ≤ fuel → perform limit fuel task w = (o, w') := by
  obtain ⟨ho, n, hrun⟩ := h
  refine ⟨n, fun fuel hfuel => ?_⟩
  exact (Machine.approximates_perform limit hfuel task).eq_of_ne_exhausted hrun ho

theorem ends_iff_step : task.Ends limit w o w' ↔
    o ≠ .exhausted ∧ ∃ fuel, step limit (perform limit fuel) task w = (o, w') := by
  constructor
  · rintro ⟨ho, fuel, hrun⟩
    cases fuel with
    | zero => exact absurd (Prod.mk.inj hrun).1.symm ho
    | succ fuel => exact ⟨ho, fuel, hrun⟩
  · rintro ⟨ho, fuel, hstep⟩
    exact ⟨ho, fuel + 1, hstep⟩

theorem ends_of_step_eq {x : Except Fault Value}
    (h : ∀ machine, step limit machine task = Run.ofExcept x) :
    task.Ends limit w (.ofExcept x) w := by
  refine ends_iff_step.mpr ⟨Outcome.ofExcept_ne_exhausted x, 0, ?_⟩
  rw [h, Run.ofExcept_apply]

end Task

end ClauseLisp
