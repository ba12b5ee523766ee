import ClauseLisp.Proofs.Builtin.Results
import ClauseLisp.Proofs.Machine.Growth
import ClauseLisp.Proofs.Machine.Occurrence

/-! Calls of builtin procedures by their names. Whatever was evaluated before, a name in the table of
builtin procedures stands for the procedure that the table gives, and a call by the name does what
the procedure does with the arguments. -/

namespace ClauseLisp.Machine

variable {limit fuel : Nat} {Program : Expr → Prop} {c : Context} {top : Bool} {name : Bytes}
  {b : Builtin} {args : List Expr} {vs : List Value} {w w₁ : World} {e : Expr}

theorem definition?_of_table (hw : w.core = .core) (h : (name, b) ∈ Builtin.table) :
    w.definition? .core name = some (.procedure (.builtin name b)) := by
  show w.core.definition? name = _
  rw [hw]
  exact Module.definition?_core_of_mem h

theorem callNamed_core (hw : w.core = .core) (h : (name, b) ∈ Builtin.table) (depth : Nat)
    (loc : Location) :
    callNamed limit (perform limit (fuel + 1)) depth loc .core name vs w =
      Builtin.invoke (fun p us => perform limit fuel (.call depth p us)) name b vs w := by
  have hfunction : w.function? .core name = none := by
    show w.core.function? name = none
    rw [hw]
    rfl
  rw [callNamed, Run.bind_of_value (x := Run.look _) rfl, hfunction]
  dsimp only
  rw [Run.bind_of_value (x := Run.look _) rfl, definition?_of_table hw h]
  rfl

/-- Calls that mean the builtin procedure of a name. In a call by the name alone, nothing around the
call and nothing in the main module may have it. -/
inductive CallsCore (w : World) (c : Context) (name : Bytes) (args : List Expr) : Expr → Prop where
  | member (loc : Location) : CallsCore w c name args (.memberCall loc coreName name args)
  | byName (loc : Location) : hasCallable w name c.home = false →
    hasCallable w name .main = false → CallsCore w c name args (.call loc name args)

theorem perform_callsCore (hw : w₁.core = .core) (h : (name, b) ∈ Builtin.table)
    (he : CallsCore w₁ c name args e)
    (hargs : evaluateAll (perform limit (fuel + 1)) c args w = (.value vs, w₁)) :
    perform limit (fuel + 2) (.evaluate c top e) w =
      Builtin.invoke (fun p us => perform limit fuel (.call c.depth p us)) name b vs w₁ := by
  cases he with
  | member loc =>
    show (evaluateAll (perform limit (fuel + 1)) c args >>=
      callMember limit (perform limit (fuel + 1)) c.depth loc coreName name) w = _
    rw [Run.bind_of_value hargs, callMember, if_pos rfl]
    exact callNamed_core hw h c.depth loc
  | byName loc hhome hmain =>
    have hcore : hasCallable w₁ name .core = true := by
      simp [hasCallable, definition?_of_table hw h]
    have hfound : [c.home, .main, .core].find? (hasCallable w₁ name) = some .core := by
      simp [hhome, hmain, hcore]
    show (evaluateAll (perform limit (fuel + 1)) c args >>=
      callByName limit (perform limit (fuel + 1)) c loc name) w = _
    rw [Run.bind_of_value hargs, callByName, Run.bind_of_value (x := Run.look _) rfl, hfound]
    exact callNamed_core hw h c.depth loc

theorem core_of_arises (h : Arises limit Program (fuel + 1) (.evaluate c top e) w)
    (hargs : evaluateAll (perform limit fuel) c args w = (.value vs, w₁)) : w₁.core = .core := by
  have hfresh : (sealing .core).Good .fresh := ⟨World.sealed_fresh, rfl⟩
  obtain ⟨hw, hframe, hhome⟩ :=
    Discipline.accepts_of_arises hfresh (fun _ _ => Home.noConfusion) h
  have hoperands : ∀ x ∈ args, (sealing .core).Fits w c false x := fun _ _ => hhome
  have hall := Discipline.agree_evaluateAll ((sealing .core).machines_perform limit fuel) hw hframe
    hoperands
  have hnext := hall.next.1
  rw [hargs] at hnext
  exact hnext.2

theorem evaluate_callsCore (h : Arises limit Program (fuel + 2) (.evaluate c top e) w)
    (hname : (name, b) ∈ Builtin.table) (he : CallsCore w₁ c name args e)
    (hargs : evaluateAll (perform limit (fuel + 1)) c args w = (.value vs, w₁)) :
    (∀ v, b.Returns vs v → perform limit (fuel + 2) (.evaluate c top e) w = (.value v, w₁)) ∧
      ∀ f, b.Raises vs f → perform limit (fuel + 2) (.evaluate c top e) w = (.fault f, w₁) := by
  rw [perform_callsCore (core_of_arises h hargs) hname he hargs]
  constructor
  · intro v hv
    rw [hv]
    rfl
  · intro f hf
    rw [hf]
    rfl

end ClauseLisp.Machine
