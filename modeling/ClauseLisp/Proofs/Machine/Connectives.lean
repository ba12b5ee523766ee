import ClauseLisp.Proofs.Expr.Agreement
import ClauseLisp.Proofs.Machine.Endings
import Mathlib.Data.List.Induction

/-! `and` and `or` of any number of operands. They compile to nodes of two operands that are nested
to the left, and evaluating them ends as a scan of the operands from left to right does, which stops
at the first operand that decides the result. -/

namespace ClauseLisp

inductive Connective where
  | and
  | or
deriving DecidableEq

namespace Connective

def name : Connective → Bytes
  | and => utf8 "and"
  | or => utf8 "or"

def special : Connective → SpecialForm
  | and => .and
  | or => .or

def form (k : Connective) (loc headLoc : Location) (operands : List Form) : Form :=
  .sequence loc .paren (.atom headLoc (.symbol k.name) :: operands)

def combine : Connective → Expr → Expr → Expr
  | and => .and
  | or => .or

def decides : Connective → Value → Bool
  | and, v => !v.truthy
  | or, v => v.truthy

def settles (k : Connective) : Outcome Value → Bool
  | .value v => k.decides v
  | _ => true

theorem ofName?_name (k : Connective) : SpecialForm.ofName? k.name = some k.special := by
  cases k <;> decide

theorem specialForm_eq_logical (k : Connective) (rule : Expr.Rule) (scope : Expr.Scope)
    (loc : Location) (args : List Form) :
    Expr.specialForm rule scope loc args k.special =
      Expr.logical rule scope k.name k.combine loc args := by
  cases k <;> rfl

theorem ofForm_form (k : Connective) {scope : Expr.Scope} {x y : Form} {xs : List Form} {e f : Expr}
    {es : List Expr}
    (h : List.Forall₂ (fun x e => (Expr.ofForm scope x).result = .ok e) (x :: y :: xs)
      (e :: f :: es)) (loc headLoc : Location) :
    (Expr.ofForm scope (k.form loc headLoc (x :: y :: xs))).result =
      .ok ((f :: es).foldl k.combine e) := by
  obtain ⟨hfirst, hrest⟩ := List.forall₂_cons.mp h
  have hoperands := Report.result_forEach hrest
  rw [Report.result_eq_ok_iff] at hfirst hoperands ⊢
  rw [form, Expr.ofForm_special k.ofName?_name, specialForm_eq_logical, Expr.logical]
  simp only [Report.toOption_bind, hfirst, hoperands, Option.bind_some, Report.toOption_pure]

end Connective

namespace Machine

variable {limit : Nat} {k : Connective} {c : Context} {top : Bool} {e l r : Expr}
  {es es' : List Expr} {w u w' : World} {o : Outcome Value}

inductive PassesOver (limit : Nat) (k : Connective) (c : Context) :
    List Expr → World → World → Prop
  | nil (w : World) : PassesOver limit k c [] w w
  | cons {e es w u w' v} : (Task.evaluate c false e).Ends limit w (.value v) u →
    k.decides v = false → PassesOver limit k c es u w' → PassesOver limit k c (e :: es) w w'

/-- The operands up to the first one that settles the matter, or else up to the last one, are
evaluated in turn. The scan ends as that operand does. -/
def Scans (limit : Nat) (k : Connective) (c : Context) (es : List Expr) (w : World)
    (o : Outcome Value) (w' : World) : Prop :=
  ∃ before e after u, es = before ++ e :: after ∧ PassesOver limit k c before w u ∧
    (Task.evaluate c false e).Ends limit u o w' ∧ (after = [] ∨ k.settles o = true)

theorem evaluateStep_combine (machine : Machine) :
    evaluateStep limit machine c top (k.combine l r) =
      evaluate machine c l >>= fun v => if k.decides v then pure v else evaluate machine c r := by
  cases k with
  | and =>
    -- An `and` goes on if the value is truthy, and so the branches are the other way round.
    have hbranches : ∀ v : Value, (if v.truthy then evaluate machine c r else pure v) =
        if Connective.and.decides v then pure v else evaluate machine c r := by
      intro v
      cases hv : v.truthy <;> simp [Connective.decides, hv]
    exact congrArg (evaluate machine c l >>= ·) (funext hbranches)
  | or => rfl

theorem ends_combine_iff :
    (Task.evaluate c top (k.combine l r)).Ends limit w o w' ↔
      ((Task.evaluate c false l).Ends limit w o w' ∧ k.settles o = true) ∨
      ∃ v u, (Task.evaluate c false l).Ends limit w (.value v) u ∧ k.decides v = false ∧
        (Task.evaluate c false r).Ends limit u o w' := by
  constructor
  · intro h
    obtain ⟨ho, fuel, hstep⟩ := Task.ends_iff_step.mp h
    change evaluateStep limit (perform limit fuel) c top (k.combine l r) w = (o, w') at hstep
    rw [evaluateStep_combine] at hstep
    rcases hleft : evaluate (perform limit fuel) c l w with ⟨left, u⟩
    cases left with
    | value v =>
      rw [Run.bind_of_value hleft] at hstep
      cases hv : k.decides v with
      | true =>
        rw [hv] at hstep
        obtain ⟨rfl, rfl⟩ := Prod.mk.inj hstep
        exact Or.inl ⟨⟨ho, fuel, hleft⟩, hv⟩
      | false =>
        rw [hv] at hstep
        exact Or.inr ⟨v, u, ⟨nofun, fuel, hleft⟩, hv, ho, fuel, hstep⟩
    | fault f =>
      rw [Run.bind_of_fault hleft] at hstep
      obtain ⟨rfl, rfl⟩ := Prod.mk.inj hstep
      exact Or.inl ⟨⟨ho, fuel, hleft⟩, rfl⟩
    | exhausted =>
      rw [Run.bind_of_exhausted hleft] at hstep
      exact absurd (Prod.mk.inj hstep).1.symm ho
  · rintro (⟨⟨ho, fuel, hleft⟩, hsettles⟩ | ⟨v, u, hleft, hv, hright⟩)
    · refine Task.ends_iff_step.mpr ⟨ho, fuel, ?_⟩
      change evaluateStep limit (perform limit fuel) c top (k.combine l r) w = (o, w')
      have hleft : evaluate (perform limit fuel) c l w = (o, w') := hleft
      rw [evaluateStep_combine]
      cases o with
      | value v =>
        have hv : k.decides v = true := hsettles
        rw [Run.bind_of_value hleft, if_pos hv]
        rfl
      | fault f => exact Run.bind_of_fault hleft
      | exhausted => exact absurd rfl ho
    · obtain ⟨n, hleft⟩ := hleft.eventually
      obtain ⟨n', hright'⟩ := hright.eventually
      let fuel := max n n'
      have hleft : evaluate (perform limit fuel) c l w = (.value v, u) :=
        hleft fuel (Nat.le_max_left n n')
      refine Task.ends_iff_step.mpr ⟨hright.1, fuel, ?_⟩
      change evaluateStep limit (perform limit fuel) c top (k.combine l r) w = (o, w')
      rw [evaluateStep_combine, Run.bind_of_value hleft, hv]
      exact hright' fuel (Nat.le_max_right n n')

theorem passesOver_append_iff :
    PassesOver limit k c (es ++ es') w w' ↔
      ∃ u, PassesOver limit k c es w u ∧ PassesOver limit k c es' u w' := by
  constructor
  · intro h
    induction es generalizing w with
    | nil => exact ⟨w, .nil w, h⟩
    | cons e es ih =>
      cases h with
      | cons hfirst hv hrest =>
        obtain ⟨u, hbefore, hafter⟩ := ih hrest
        exact ⟨u, .cons hfirst hv hbefore, hafter⟩
  · rintro ⟨u, hbefore, hafter⟩
    induction hbefore with
    | nil => exact hafter
    | cons hfirst hv _ ih => exact .cons hfirst hv (ih hafter)

theorem passesOver_iff_scans (hes : es ≠ []) :
    PassesOver limit k c es w w' ↔
      ∃ v, Scans limit k c es w (.value v) w' ∧ k.decides v = false := by
  constructor
  · intro h
    obtain ⟨before, e, rfl⟩ := (List.eq_nil_or_concat es).resolve_left hes
    rw [List.concat_eq_append] at h ⊢
    obtain ⟨u, hbefore, hlast⟩ := passesOver_append_iff.mp h
    cases hlast with
    | cons hlast hv hnil =>
      cases hnil
      exact ⟨_, ⟨before, e, [], u, rfl, hbefore, hlast, Or.inl rfl⟩, hv⟩
  · rintro ⟨v, ⟨before, e, after, u, rfl, hbefore, hlast, hafter⟩, hv⟩
    rcases hafter with rfl | hsettles
    · exact passesOver_append_iff.mpr ⟨u, hbefore, .cons hlast hv (.nil w')⟩
    · exact absurd (hv.symm.trans hsettles) Bool.false_ne_true

theorem scans_concat_iff (hes : es ≠ []) :
    Scans limit k c (es ++ [e]) w o w' ↔
      (Scans limit k c es w o w' ∧ k.settles o = true) ∨
      ∃ v u, Scans limit k c es w (.value v) u ∧ k.decides v = false ∧
        (Task.evaluate c false e).Ends limit u o w' := by
  constructor
  · rintro ⟨before, x, after, u, hsplit, hbefore, hx, hafter⟩
    -- Either the new operand is the one that is scanned last, or it stands behind that one.
    rcases List.eq_nil_or_concat after with rfl | ⟨after, y, rfl⟩
    · obtain ⟨rfl, rfl⟩ := List.append_singleton_inj.mp hsplit
      obtain ⟨v, hscan, hv⟩ := (passesOver_iff_scans hes).mp hbefore
      exact Or.inr ⟨v, u, hscan, hv, hx⟩
    · rw [List.concat_eq_append, ← List.cons_append, ← List.append_assoc] at hsplit
      obtain ⟨rfl, rfl⟩ := List.append_singleton_inj.mp hsplit
      have hsettles : k.settles o = true := hafter.resolve_left (by simp)
      exact Or.inl ⟨⟨before, x, after, u, rfl, hbefore, hx, Or.inr hsettles⟩, hsettles⟩
  · rintro (⟨⟨before, x, after, u, rfl, hbefore, hx, -⟩, hsettles⟩ | ⟨v, u, hscan, hv, he⟩)
    · exact ⟨before, x, after ++ [e], u, by simp, hbefore, hx, Or.inr hsettles⟩
    · exact ⟨es, e, [], u, rfl, (passesOver_iff_scans hes).mpr ⟨v, hscan, hv⟩, he, Or.inl rfl⟩

-- The induction takes operands off at the end, where the outermost node has its right operand.
theorem ends_foldl_combine_iff_scans :
    (Task.evaluate c false (es.foldl k.combine e)).Ends limit w o w' ↔
      Scans limit k c (e :: es) w o w' := by
  induction es using List.reverseRecOn generalizing w o w' with
  | nil =>
    constructor
    · intro h
      exact ⟨[], e, [], w, rfl, .nil w, h, Or.inl rfl⟩
    · rintro ⟨before, x, after, u, hsplit, hbefore, hx, -⟩
      obtain ⟨rfl, hrest⟩ | ⟨rest, rfl, hrest⟩ := List.append_eq_cons_iff.mp hsplit.symm
      · obtain ⟨rfl, -⟩ := List.cons.inj hrest
        cases hbefore
        exact hx
      · exact absurd hrest.symm (by simp)
  | append_singleton es f ih =>
    rw [List.foldl_append, List.foldl_cons, List.foldl_nil, ends_combine_iff,
      ← List.cons_append, scans_concat_iff (List.cons_ne_nil e es)]
    simp only [ih]

/-- Two operands or more that compile make an `and` or `or` that compiles. Evaluating it ends in the
way and in the world in which the first operand ends that decides the result or raises a fault, or
else the last one; the operands before it are evaluated once each, from left to right, and none
after it. -/
theorem evaluate_connective_scans (k : Connective) {scope : Expr.Scope} {xs : List Form}
    {es : List Expr} (hlength : 2 ≤ xs.length)
    (hes : List.Forall₂ (fun x e => (Expr.ofForm scope x).result = .ok e) xs es)
    (loc headLoc : Location) :
    ∃ e, (Expr.ofForm scope (k.form loc headLoc xs)).result = .ok e ∧
      ∀ limit c top w o w',
        (Task.evaluate c top e).Ends limit w o w' ↔ Scans limit k c es w o w' := by
  cases hes with
  | nil => exact absurd hlength (by decide)
  | @cons x e xs es hx hes =>
    cases hes with
    | nil => exact absurd hlength (by simp)
    | @cons y f xs es hy hes =>
      refine ⟨_, k.ofForm_form (.cons hx (.cons hy hes)) loc headLoc, ?_⟩
      intro limit c top w o w'
      rw [← ends_foldl_combine_iff_scans]
      obtain ⟨operands, last, hlast⟩ :=
        (List.eq_nil_or_concat (f :: es)).resolve_left (List.cons_ne_nil f es)
      rw [hlast, List.concat_eq_append, List.foldl_append, List.foldl_cons, List.foldl_nil,
        ends_combine_iff, ends_combine_iff]

def printForm (s : Bytes) : Form :=
  .sequence .unknown .paren [.atom .unknown (.symbol (utf8 "println")), .atom .unknown (.string s)]

theorem evaluate_connective_scans_printing :
    let xs := [printForm (utf8 "a"), .atom .unknown .nil, printForm (utf8 "b")]
    ∃ e, (Expr.ofForm [] (Connective.and.form .unknown .unknown xs)).result = .ok e ∧
      (Task.evaluate ⟨.main, [], 0⟩ true e).Ends 1000 .fresh (.value .nil)
        (World.fresh.print (utf8 "a\n")) := by
  intro xs
  let print (s : Bytes) : Expr := .operation .unknown .println [.literal (.string s)]
  have hes : List.Forall₂ (fun x e => (Expr.ofForm [] x).result = .ok e) xs
      [print (utf8 "a"), .literal .nil, print (utf8 "b")] :=
    .cons rfl (.cons rfl (.cons rfl .nil))
  have hlength : 2 ≤ xs.length := by decide
  obtain ⟨e, he, hends⟩ := evaluate_connective_scans .and hlength hes .unknown .unknown
  refine ⟨e, he, (hends _ _ _ _ _ _).mpr ?_⟩
  have hfirst : (Task.evaluate ⟨.main, [], 0⟩ false (print (utf8 "a"))).Ends 1000 .fresh
      (.value (.tag (utf8 "ok"))) (World.fresh.print (utf8 "a\n")) := ⟨nofun, 2, rfl⟩
  exact ⟨[print (utf8 "a")], .literal .nil, [print (utf8 "b")], _, rfl,
    .cons hfirst rfl (.nil _), ⟨nofun, 1, rfl⟩, Or.inr rfl⟩

end Machine
end ClauseLisp
