import ClauseLisp.Proofs.Builtin.Calls

/-! Runs that are cut short. A run truncates another one if it does the same, unless it stops in one
of some ways. Runs that are put together from truncated ones are truncated themselves, as long as
nothing catches the stops. -/

namespace ClauseLisp

inductive Stop where
  | fault (f : Fault)
  | exhausted

def Stop.outcome {α : Type} : Stop → Outcome α
  | fault f => .fault f
  | exhausted => .exhausted

namespace Run

variable {α β : Type} {S : Stop → Prop} {x y : Run α} {w w' : World}

/-- In every world `x` does what `y` does, or stops in one of the ways. -/
def Truncates (S : Stop → Prop) (x y : Run α) : Prop :=
  ∀ w, x w = y w ∨ ∃ stop w', S stop ∧ x w = (stop.outcome, w')

theorem truncates_refl (x : Run α) : Truncates S x x := fun _ => Or.inl rfl

theorem truncates_raise {f : Fault} (hf : S (.fault f)) (y : Run α) : Truncates S (raise f) y :=
  fun w => Or.inr ⟨.fault f, w, hf, rfl⟩

theorem bind_of_stop {stop : Stop} {f : α → Run β} (h : x w = (stop.outcome, w')) :
    (x >>= f) w = (stop.outcome, w') := by
  cases stop with
  | fault e => exact bind_of_fault h
  | exhausted => exact bind_of_exhausted h

theorem bind_congr {f : α → Run β} (h : x w = y w) : (x >>= f) w = (y >>= f) w := by
  show Run.bind x f w = Run.bind y f w
  simp only [Run.bind, h]

theorem Truncates.bind {f g : α → Run β} (hx : Truncates S x y)
    (hf : ∀ a, Truncates S (f a) (g a)) : Truncates S (x >>= f) (y >>= g) := by
  -- What follows a run that was not stopped may be stopped itself.
  intro w
  rcases hx w with heq | ⟨stop, w', hstop, hx⟩
  · rw [bind_congr heq]
    rcases hy : y w with ⟨o, w'⟩
    cases o with
    | value a =>
      rw [bind_of_value hy, bind_of_value hy]
      exact hf a w'
    | fault e =>
      left
      rw [bind_of_fault hy, bind_of_fault hy]
    | exhausted =>
      left
      rw [bind_of_exhausted hy, bind_of_exhausted hy]
  · exact Or.inr ⟨stop, w', hstop, bind_of_stop hx⟩

theorem truncates_bind_left {f g : α → Run β} (x : Run α) (hf : ∀ a, Truncates S (f a) (g a)) :
    Truncates S (x >>= f) (x >>= g) :=
  (truncates_refl x).bind hf

theorem Truncates.bind_right (hx : Truncates S x y) (f : α → Run β) :
    Truncates S (x >>= f) (y >>= f) :=
  hx.bind fun a => truncates_refl (f a)

theorem truncates_ite {p : Prop} [Decidable p] {x' y' : Run α} (hx : Truncates S x y)
    (hx' : Truncates S x' y') :
    Truncates S (if p then x else x') (if p then y else y') := by
  split
  · exact hx
  · exact hx'

theorem Truncates.catching {handle : Fault → Run α} (hx : Truncates S x y)
    (hhandle : ∀ f, S (.fault f) → handle f = raise f) :
    Truncates S (catching x handle) (catching y handle) := by
  intro w
  rcases hx w with heq | ⟨stop, w', hstop, hx⟩
  · left
    simp only [Run.catching, heq]
  · right
    refine ⟨stop, w', hstop, ?_⟩
    cases stop with
    | fault f => rw [catching_of_fault hx, hhandle f hstop]; rfl
    | exhausted => rw [catching_of_exhausted hx, hx]

section Loops

variable {f g : α → Run β} {test test' : α → Run Bool}

theorem truncates_forEach (h : ∀ a, Truncates S (f a) (g a)) (as : List α) :
    Truncates S (forEach f as) (forEach g as) := by
  induction as with
  | nil => exact truncates_refl _
  | cons a as ih => exact (h a).bind fun b => ih.bind_right _

theorem truncates_foldLeft {f g : β → α → Run β} (h : ∀ b a, Truncates S (f b a) (g b a)) (b : β)
    (as : List α) : Truncates S (foldLeft f b as) (foldLeft g b as) := by
  induction as generalizing b with
  | nil => exact truncates_refl _
  | cons a as ih => exact (h b a).bind ih

theorem truncates_findFirst (h : ∀ a, Truncates S (test a) (test' a)) (as : List α) :
    Truncates S (findFirst test as) (findFirst test' as) := by
  induction as with
  | nil => exact truncates_refl _
  | cons a as ih => exact (h a).bind fun b => truncates_ite (truncates_refl _) ih

theorem truncates_splitBy (h : ∀ a, Truncates S (test a) (test' a)) (as : List α) :
    Truncates S (splitBy test as) (splitBy test' as) := by
  induction as with
  | nil => exact truncates_refl _
  | cons a as ih => exact (h a).bind fun b => ih.bind_right _

end Loops

end Run

namespace Builtin

open Run (Truncates truncates_refl truncates_bind_left truncates_forEach truncates_foldLeft
  truncates_findFirst truncates_splitBy truncates_ite)

variable {S : Stop → Prop} {call call' : Caller}

theorem truncates_accepts (h : ∀ p args, Truncates S (call p args) (call' p args)) (p : Procedure)
    (x : Value) : Truncates S (accepts call p x) (accepts call' p x) :=
  (h p [x]).bind_right _

theorem truncates_procedure_elements {k k' : Procedure → List Value → Run Value}
    (h : ∀ p xs, Truncates S (k p xs) (k' p xs)) (f xs : Value) :
    Truncates S (do let p ← procedure f; k p (← elements xs))
      (do let p ← procedure f; k' p (← elements xs)) :=
  truncates_bind_left _ fun p => truncates_bind_left _ fun zs => h p zs

theorem truncates_perform (h : ∀ p args, Truncates S (call p args) (call' p args)) (b : Builtin)
    (args : List Value) : Truncates S (b.perform call args) (b.perform call' args) := by
  have htest := truncates_accepts h
  have hcombine : ∀ p acc x, Truncates S (combine call p acc x) (combine call' p acc x) :=
    fun p acc x => h p [x, acc]
  unfold perform
  split
  case h_1 =>
    apply truncates_procedure_elements
    exact fun p xs => (truncates_forEach (fun x => h p [x]) xs).bind_right _
  case h_2 | h_3 =>
    apply truncates_procedure_elements
    exact fun p xs => (truncates_splitBy (htest p) xs).bind_right _
  case h_4 =>
    apply truncates_procedure_elements
    exact fun p xs => truncates_foldLeft (hcombine p) _ xs
  case h_5 =>
    apply truncates_procedure_elements
    exact fun p xs => truncates_foldLeft (hcombine p) _ xs.reverse
  case h_6 =>
    apply truncates_procedure_elements
    exact h
  case h_7 =>
    apply truncates_procedure_elements
    exact fun p xs => (truncates_findFirst (fun x => (htest p x).bind_right _) xs).bind_right _
  case h_8 | h_9 =>
    apply truncates_procedure_elements
    exact fun p xs => (truncates_findFirst (htest p) xs).bind_right _
  -- The rest call nothing.
  all_goals exact truncates_refl _

theorem truncates_invoke (h : ∀ p args, Truncates S (call p args) (call' p args)) (name : Bytes)
    (b : Builtin) (args : List Value) :
    Truncates S (invoke call name b args) (invoke call' name b args) := by
  have hperform := truncates_perform h b args
  unfold invoke
  cases b.arity? with
  | none => exact hperform
  | some n => exact truncates_ite hperform (truncates_refl _)

end Builtin
end ClauseLisp
