import ClauseLisp.Proofs.Machine.Truncation

/-! Fuel. A task that is performed without being exhausted is performed in the same way with more
fuel, since nothing catches that fuel runs out. -/

namespace ClauseLisp

namespace Run

variable {α : Type} {S : Stop → Prop} {x y z : Run α} {w w' : World} {o : Outcome α}

theorem Truncates.trans (hxy : Truncates S x y) (hyz : Truncates S y z) : Truncates S x z := by
  intro w
  rcases hxy w with heq | hstop
  · rw [heq]
    exact hyz w
  · exact Or.inr hstop

/-- In every world `x` does what `y` does, or is exhausted. -/
abbrev Approximates (x y : Run α) : Prop := Truncates (· = .exhausted) x y

theorem approximates_exhaust (y : Run α) : Approximates exhaust y :=
  fun w => Or.inr ⟨.exhausted, w, rfl, rfl⟩

theorem Approximates.eq_of_ne_exhausted (h : Approximates x y) (hx : x w = (o, w'))
    (ho : o ≠ .exhausted) : y w = (o, w') := by
  rcases h w with heq | ⟨_, w'', rfl, hstop⟩
  · rw [← heq, hx]
  · rw [hx] at hstop
    exact absurd (Prod.mk.inj hstop).1 ho

end Run

namespace Machine

open Run (Approximates truncates_refl approximates_exhaust)

variable {m m' : Machine}

theorem cutoff_exhausted (limit : Nat) : Cutoff (· = .exhausted) limit limit :=
  ⟨Nat.le_refl _, Or.inl rfl, fun _ hf => nomatch hf⟩

theorem approximates_step (limit : Nat) (hm : ∀ task, Approximates (m task) (m' task))
    (task : Task) : Approximates (step limit m task) (step limit m' task) := by
  by_cases htask : task.isAttempt = true
  · match task with
    | .evaluate c top (.attempt e) => exact (hm _).catching fun _ hf => nomatch hf
  · exact truncates_step (cutoff_exhausted limit) hm (Bool.not_eq_true _ ▸ htask)

theorem approximates_perform_succ (limit fuel : Nat) (task : Task) :
    Approximates (perform limit fuel task) (perform limit (fuel + 1) task) := by
  induction fuel generalizing task with
  | zero => exact approximates_exhaust _
  | succ fuel ih => exact approximates_step limit ih task

theorem approximates_perform (limit : Nat) {fuel fuel' : Nat} (h : fuel ≤ fuel') (task : Task) :
    Approximates (perform limit fuel task) (perform limit fuel' task) := by
  induction h with
  | refl => exact truncates_refl _
  | step _ ih => exact ih.trans (approximates_perform_succ limit _ task)

end Machine
end ClauseLisp
