import ClauseLisp.Proofs.Machine.Discipline

/-! The tasks that arise while programs run. A step asks for a task in a world if it depends on what
the machine does with the task there. All tasks that arise from programs of a discipline are
accepted by it, and the worlds they are performed in are good. -/

namespace ClauseLisp

namespace Machine

/-- A machine that does something else with `task'` in the world `w'`, and with no other task or
world, can make another step of `task` in `w`. -/
def Asks (limit : Nat) (machine : Machine) (task : Task) (w : World) (task' : Task) (w' : World) :
    Prop :=
  ∃ other : Machine, (∀ t u, ¬ (t = task' ∧ u = w') → other t u = machine t u) ∧
    step limit other task w ≠ step limit machine task w

theorem asks_of_exhausted {limit : Nat} {machine : Machine} {task task' : Task} {w w' : World}
    (hends : (step limit machine task w).1 ≠ .exhausted)
    (h : ∀ other : Machine, (∀ t u, ¬ (t = task' ∧ u = w') → other t u = machine t u) →
      other task' w' = (.exhausted, w') → (step limit other task w).1 = .exhausted) :
    Asks limit machine task w task' w' := by
  classical
  let other : Machine := fun t u => if t = task' ∧ u = w' then (.exhausted, u) else machine t u
  have hsame : ∀ t u, ¬ (t = task' ∧ u = w') → other t u = machine t u :=
    fun t u h => if_neg h
  have hexhausted : other task' w' = (.exhausted, w') := if_pos ⟨rfl, rfl⟩
  refine ⟨other, hsame, fun heq => hends ?_⟩
  rw [← heq]
  exact h other hsame hexhausted

/-- The worlds that come from the fresh one when programs are evaluated one after the other, with
whatever results. -/
inductive Reached (limit : Nat) (Program : Expr → Prop) : World → Prop where
  | fresh : Reached limit Program .fresh
  | evaluate {w : World} {e : Expr} (fuel : Nat) : Reached limit Program w → Program e →
    Reached limit Program (perform limit fuel (.evaluate ⟨.main, [], 0⟩ true e) w).2

inductive Arises (limit : Nat) (Program : Expr → Prop) : Nat → Task → World → Prop where
  | top {w : World} {e : Expr} (fuel : Nat) : Reached limit Program w → Program e →
    Arises limit Program fuel (.evaluate ⟨.main, [], 0⟩ true e) w
  | inside {fuel : Nat} {task task' : Task} {w w' : World} :
    Arises limit Program (fuel + 1) task w →
    Asks limit (perform limit fuel) task w task' w' → Arises limit Program fuel task' w'

end Machine

namespace Discipline

open Machine (Asks Reached Arises perform)

variable {D : Discipline} {limit : Nat} {w w' : World} {task task' : Task}

theorem accepts_of_asks {m : Machine} (hm : D.Machines m m) (hw : D.Good w)
    (htask : D.Accepts w task) (h : Asks limit m task w task' w') :
    D.Good w' ∧ D.Accepts w' task' := by
  -- The step would not notice a machine that does something else with what is not accepted.
  apply Classical.byContradiction
  intro hnot
  obtain ⟨other, hother, hne⟩ := h
  have hmachines : D.Machines m other := by
    intro u t hu ht
    have hsame : other t u = m t u := by
      apply hother
      rintro ⟨rfl, rfl⟩
      exact hnot ⟨hu, ht⟩
    have hagree := hm u t hu ht
    exact ⟨hsame.symm, hagree.next, hagree.ends⟩
  exact hne (agree_step hmachines hw htask).eq.symm

variable {Program : Expr → Prop}

section

variable (hfresh : D.Good .fresh)
  (hprogram : ∀ {w e}, Program e → D.Good w → D.Fits w ⟨.main, [], 0⟩ true e)

include hfresh hprogram

theorem good_of_reached (h : Reached limit Program w) : D.Good w := by
  induction h with
  | fresh => exact hfresh
  | @evaluate w e fuel _ he ih =>
    have htask : D.Accepts w (.evaluate ⟨.main, [], 0⟩ true e) :=
      ⟨List.forall_mem_nil _, hprogram he ih⟩
    exact (machines_perform D limit fuel w _ ih htask).next.1

theorem accepts_of_arises {fuel : Nat} (h : Arises limit Program fuel task w) :
    D.Good w ∧ D.Accepts w task := by
  induction h with
  | top fuel hw he =>
    have hgood := good_of_reached hfresh hprogram hw
    exact ⟨hgood, List.forall_mem_nil _, hprogram he hgood⟩
  | inside _ hasks ih => exact accepts_of_asks (machines_perform D limit _) ih.1 ih.2 hasks

end

end Discipline
end ClauseLisp
