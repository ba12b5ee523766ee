import ClauseLisp.Proofs.Expr.Definitions
import ClauseLisp.Proofs.Session.Pieces

/-! Scopes and frames of bodies. Evaluating the first expressions of a body binds the names that
they define. Where no form hides its definition, these are the names that the rest of the body is
compiled with, so that scope and frame stay the same from form to form. -/

namespace ClauseLisp

namespace Expr

theorem flatMap_bound {scope : Scope} {xs : List Form} {es : List Expr}
    (h : (body ofForm scope xs).result = .ok es) :
    es.flatMap bound = definedNames (xs.map Form.unwrapped) := by
  induction xs generalizing scope es with
  | nil =>
    obtain rfl := Except.ok.inj h
    rfl
  | cons x xs ih =>
    obtain ⟨e, rest, he, hrest, rfl⟩ := body_cons_eq_ok_iff.mp h
    rw [List.flatMap_cons, bound_ofForm he, ih hrest, List.map_cons]
    cases hname : definedName? x.unwrapped <;> simp [definedNames, hname]

end Expr

namespace Machine

variable {m : Machine} {c : Context} {last v : Value} {w w' : World} {e : Expr} {es : List Expr}

theorem evaluateBody_cons_binds (h : evaluateBody m c last (e :: es) w = (.value v, w')) :
    ∃ (frame : ValueFrame) (v₁ : Value) (u : World),
      frame.map Prod.fst = e.bound ++ c.frame.map Prod.fst ∧
      ∀ es', evaluateBody m c last (e :: es') w = evaluateBody m { c with frame } v₁ es' u := by
  cases e with
  | define name value =>
    obtain ⟨v₁, u, hfirst, -⟩ := Run.exists_of_bind_value h
    exact ⟨(name, v₁) :: c.frame, v₁, u, rfl, fun _ => Run.bind_of_value hfirst⟩
  | _ =>
    obtain ⟨v₁, u, hfirst, -⟩ := Run.exists_of_bind_value h
    exact ⟨c.frame, v₁, u, rfl, fun _ => Run.bind_of_value hfirst⟩

theorem evaluateBody_append_binds (h : evaluateBody m c last es w = (.value v, w')) :
    ∃ frame : ValueFrame,
      frame.map Prod.fst = (es.flatMap Expr.bound).reverse ++ c.frame.map Prod.fst ∧
      ∀ es', evaluateBody m c last (es ++ es') w = evaluateBody m { c with frame } v es' w' := by
  induction es generalizing c last w with
  | nil =>
    cases h
    exact ⟨c.frame, rfl, fun _ => rfl⟩
  | cons e es ih =>
    obtain ⟨frame₁, v₁, u, hfirst, hstep⟩ := evaluateBody_cons_binds h
    rw [hstep] at h
    obtain ⟨frame, hrest, hbody⟩ := ih h
    refine ⟨frame, ?_, fun es' => (hstep (es ++ es')).trans (hbody es')⟩
    have hsingle : e.bound.reverse = e.bound := by cases e <;> rfl
    rw [hrest, hfirst, List.flatMap_cons, List.reverse_append, hsingle, List.append_assoc]

/-- Where no form hides a definition, the forms that follow some in a body are compiled in the scope
of the names of the frame that they are evaluated in. -/
theorem scope_eq_frame {scope : Expr.Scope} {xs ys : List Form}
    (h : (Expr.body Expr.ofForm scope (xs ++ ys)).result = .ok es)
    (hxs : ∀ x ∈ xs, Expr.definedName? x.unwrapped = Expr.definedName? x)
    (hc : c.frame.map Prod.fst = scope) :
    ∃ es₁ es₂, (Expr.body Expr.ofForm scope xs).result = .ok es₁ ∧ es = es₁ ++ es₂ ∧
      ∀ m last w v w', evaluateBody m c last es₁ w = (.value v, w') →
        ∃ frame : ValueFrame,
          (Expr.body Expr.ofForm (frame.map Prod.fst) ys).result = .ok es₂ ∧
          evaluateBody m c last es w = evaluateBody m { c with frame } v es₂ w' := by
  obtain ⟨es₁, es₂, h₁, h₂, rfl⟩ := Expr.body_append_eq_ok h
  have hbound : es₁.flatMap Expr.bound = Expr.definedNames xs := by
    rw [Expr.flatMap_bound h₁, Expr.definedNames, List.filterMap_map]
    exact List.filterMap_congr hxs
  refine ⟨es₁, es₂, h₁, rfl, fun m last w v w' hrun => ?_⟩
  obtain ⟨frame, hnames, hbody⟩ := evaluateBody_append_binds hrun
  refine ⟨frame, ?_, hbody es₂⟩
  rw [hnames, hbound, hc]
  exact h₂

end Machine
end ClauseLisp
