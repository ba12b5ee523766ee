import ClauseLisp.Proofs.Expr.Agreement
import ClauseLisp.Proofs.Machine.Fuel

/-! Bindings of a let. They can be written one after the other, as pairs, or each in a let of its
own around the next one. The three ways compile together, and evaluating them ends in the same
way. -/

namespace ClauseLisp

namespace Form

def letForm (loc headLoc bindingsLoc : Location) (bindings : List Form) (body : Form) : Form :=
  .sequence loc .paren
    [.atom headLoc (.symbol (utf8 "let")), .sequence bindingsLoc .square bindings, body]

inductive FlatBindings : List (Bytes × Form) → List Form → Prop
  | nil : FlatBindings [] []
  | cons {name value bs xs} (loc : Location) : FlatBindings bs xs →
    FlatBindings ((name, value) :: bs) (.atom loc (.symbol name) :: value :: xs)

inductive PairBindings : List (Bytes × Form) → List Form → Prop
  | nil : PairBindings [] []
  | cons {name value bs xs} (pairLoc loc : Location) : PairBindings bs xs →
    PairBindings ((name, value) :: bs)
      (.sequence pairLoc .paren [.atom loc (.symbol name), value] :: xs)

inductive NestedLets (body : Form) : List (Bytes × Form) → Form → Prop
  | last {name value} (loc headLoc bindingsLoc nameLoc : Location) :
    NestedLets body [(name, value)]
      (letForm loc headLoc bindingsLoc [.atom nameLoc (.symbol name), value] body)
  | cons {name value bs x} (loc headLoc bindingsLoc nameLoc : Location) : NestedLets body bs x →
    NestedLets body ((name, value) :: bs)
      (letForm loc headLoc bindingsLoc [.atom nameLoc (.symbol name), value] x)

end Form

namespace Expr

open Form (letForm FlatBindings PairBindings NestedLets)

def compileLet? (body : Form) : Scope → List (Bytes × Form) → Option (List Binding × Expr)
  | scope, [] => (ofForm scope body).result.toOption.map ([], ·)
  | scope, (name, value) :: bs =>
    (ofForm scope value).result.toOption.bind fun e =>
      (compileLet? body (name :: scope) bs).map fun r => (⟨name, e⟩ :: r.1, r.2)

def nestLets (bs : List Binding) (body : Expr) : Expr := bs.foldr (fun b e => .letIn [b] e) body

theorem length_of_compileLet? {body : Form} {scope : Scope} {bs : List (Bytes × Form)}
    {r : List Binding × Expr} (h : compileLet? body scope bs = some r) :
    r.1.length = bs.length := by
  induction bs generalizing scope r with
  | nil =>
    obtain ⟨e, -, rfl⟩ := Option.map_eq_some_iff.mp h
    rfl
  | cons b bs ih =>
    obtain ⟨e, -, hrest⟩ := Option.bind_eq_some_iff.mp h
    obtain ⟨r, hr, rfl⟩ := Option.map_eq_some_iff.mp hrest
    exact congrArg (· + 1) (ih hr)

def Names (b : Bytes × Form) (p : Form × Form) : Prop := p.1.symbol? = some b.1 ∧ p.2 = b.2

section Readings

variable {bs : List (Bytes × Form)} {xs : List Form}

theorem letPairs_of_flat (h : FlatBindings bs xs) (loc : Location) :
    ∃ pairs, letPairs (.sequence loc .square xs) = pure pairs ∧ List.Forall₂ Names bs pairs := by
  obtain ⟨pairs, hpairs, hnames⟩ :
      ∃ pairs, alternating? xs = some pairs ∧ List.Forall₂ Names bs pairs := by
    induction h with
    | nil => exact ⟨[], rfl, .nil⟩
    | cons loc _ ih =>
      obtain ⟨pairs, hpairs, hnames⟩ := ih
      exact ⟨_, by rw [alternating?, hpairs, Option.map_some], .cons ⟨rfl, rfl⟩ hnames⟩
  refine ⟨pairs, ?_, hnames⟩
  cases h with
  | nil =>
    cases hnames
    rfl
  | cons loc h =>
    -- A name is not a pair, so the elements are not read as pairs.
    simp only [letPairs, listed?, List.mapM_cons, pair?, Option.bind_eq_bind, Option.bind_none,
      Option.none_or, hpairs]

theorem letPairs_of_pairs (h : PairBindings bs xs) (loc : Location) :
    ∃ pairs, letPairs (.sequence loc .square xs) = pure pairs ∧ List.Forall₂ Names bs pairs := by
  obtain ⟨pairs, hpairs, hnames⟩ :
      ∃ pairs, xs.mapM pair? = some pairs ∧ List.Forall₂ Names bs pairs := by
    induction h with
    | nil => exact ⟨[], rfl, .nil⟩
    | cons pairLoc loc _ ih =>
      obtain ⟨pairs, hpairs, hnames⟩ := ih
      refine ⟨(.atom loc (.symbol _), _) :: pairs, ?_, .cons ⟨rfl, rfl⟩ hnames⟩
      rw [List.mapM_cons, hpairs]
      rfl
  refine ⟨pairs, ?_, hnames⟩
  simp only [letPairs, listed?, hpairs, Option.some_or]

end Readings

theorem toOption_letBindings {bs : List (Bytes × Form)} {pairs : List (Form × Form)}
    (h : List.Forall₂ Names bs pairs) (scope : Scope) (body : Form) :
    ((letBindings ofForm scope pairs).result.toOption.bind fun r =>
        (ofForm r.2 body).result.toOption.map (r.1, ·)) = compileLet? body scope bs := by
  induction h generalizing scope with
  | nil => rfl
  | @cons b p bs pairs hp _ ih =>
    obtain ⟨name, value⟩ := b
    obtain ⟨x, y⟩ := p
    obtain ⟨hname, rfl⟩ := hp
    have hexpect : expectName (utf8 "let") x = pure name := by
      rw [expectName, hname]
    have hbind : (bindName scope name x.loc).result.toOption = some (name :: scope) := by
      rw [result_bindName]
      rfl
    rw [letBindings, hexpect, compileLet?, ← ih]
    simp only [Report.toOption_bind, Report.toOption_pure, Option.bind_some, hbind,
      Option.map_eq_bind, Function.comp_def, Option.bind_assoc]

theorem toOption_ofForm_letForm {bs : List (Bytes × Form)} {xs : List Form}
    {pairs : List (Form × Form)} {bindingsLoc : Location}
    (hpairs : letPairs (.sequence bindingsLoc .square xs) = pure pairs)
    (h : List.Forall₂ Names bs pairs) (scope : Scope) (loc headLoc : Location) (body : Form) :
    (ofForm scope (letForm loc headLoc bindingsLoc xs body)).result.toOption =
      (compileLet? body scope bs).map fun r => .letIn r.1 r.2 := by
  have hlet : SpecialForm.ofName? (utf8 "let") = some .letIn := by decide
  rw [letForm, ofForm_special hlet, ← toOption_letBindings h]
  simp only [specialForm, letExpression, hpairs, Report.toOption_bind, Report.toOption_pure,
    Option.bind_some, Option.map_eq_bind, Function.comp_def, Option.bind_assoc]

theorem toOption_ofForm_nestedLets {body x : Form} {bs : List (Bytes × Form)}
    (h : NestedLets body bs x) (scope : Scope) :
    (ofForm scope x).result.toOption =
      (compileLet? body scope bs).map fun r => nestLets r.1 r.2 := by
  induction h generalizing scope with
  | last loc headLoc bindingsLoc nameLoc =>
    obtain ⟨pairs, hpairs, hnames⟩ := letPairs_of_flat (.cons nameLoc .nil) bindingsLoc
    rw [toOption_ofForm_letForm hpairs hnames]
    simp only [compileLet?, Option.map_eq_bind, Function.comp_def, Option.bind_assoc,
      Option.bind_some, nestLets, List.foldr_cons, List.foldr_nil]
  | cons loc headLoc bindingsLoc nameLoc _ ih =>
    obtain ⟨pairs, hpairs, hnames⟩ := letPairs_of_flat (.cons nameLoc .nil) bindingsLoc
    rw [toOption_ofForm_letForm hpairs hnames]
    simp only [compileLet?, ih, nestLets, Option.map_eq_bind, Function.comp_def,
      Option.bind_assoc, Option.bind_some, List.foldr_cons]

end Expr

namespace Machine

open Run (Approximates approximates_exhaust)
open ClauseLisp.Expr (nestLets compileLet? letPairs_of_flat letPairs_of_pairs
  toOption_ofForm_letForm toOption_ofForm_nestedLets length_of_compileLet?)

variable {limit fuel : Nat} {c : Context} {body : Expr}

theorem evaluateLet_approximates_nestLets (b : Binding) (bs : List Binding) (top : Bool) :
    Approximates (evaluateLet (perform limit fuel) body c (b :: bs))
      (perform limit (fuel + bs.length + 1) (.evaluate c top (nestLets (b :: bs) body))) := by
  -- Each name takes a let of its own, and so one unit of fuel.
  induction bs generalizing b c top with
  | nil => exact Run.truncates_refl _
  | cons b' bs ih =>
    have hfuel : fuel ≤ fuel + (b' :: bs).length := Nat.le_add_right _ _
    exact (approximates_perform limit hfuel _).bind fun v => ih b' false

theorem nestLets_approximates_letIn (b : Binding) (bs : List Binding) (top : Bool) :
    Approximates (perform limit fuel (.evaluate c top (nestLets (b :: bs) body)))
      (perform limit fuel (.evaluate c top (.letIn (b :: bs) body))) := by
  induction bs generalizing b c top fuel with
  | nil => exact Run.truncates_refl _
  | cons b' bs ih =>
    cases fuel with
    | zero => exact approximates_exhaust _
    | succ fuel =>
      refine Run.truncates_bind_left _ fun v => (ih b' false).trans ?_
      cases fuel with
      | zero => exact approximates_exhaust _
      | succ fuel =>
        exact truncates_evaluateLet (approximates_perform_succ limit fuel) body _ (b' :: bs)

theorem exists_perform_letIn_iff_nestLets {bs : List Binding} (hbs : bs ≠ []) (top : Bool)
    {w w' : World} {o : Outcome Value} (ho : o ≠ .exhausted) :
    (∃ fuel, perform limit fuel (.evaluate c top (.letIn bs body)) w = (o, w')) ↔
      ∃ fuel, perform limit fuel (.evaluate c top (nestLets bs body)) w = (o, w') := by
  obtain ⟨b, bs, rfl⟩ := List.exists_cons_of_ne_nil hbs
  constructor
  · rintro ⟨fuel, hrun⟩
    cases fuel with
    | zero => exact absurd (Prod.mk.inj hrun).1.symm ho
    | succ fuel =>
      exact ⟨_, (evaluateLet_approximates_nestLets b bs top).eq_of_ne_exhausted hrun ho⟩
  · rintro ⟨fuel, hrun⟩
    exact ⟨fuel, (nestLets_approximates_letIn b bs top).eq_of_ne_exhausted hrun ho⟩

open Form (letForm FlatBindings PairBindings NestedLets)

/-- The three ways to write the bindings of a let either all fail to compile, or evaluating what
they compile to ends with the same value or fault and in the same world. -/
theorem evaluate_let_sequential {bs : List (Bytes × Form)} {xs ys : List Form} {body z : Form}
    (hxs : FlatBindings bs xs) (hys : PairBindings bs ys) (hz : NestedLets body bs z)
    (scope : Expr.Scope) (loc headLoc bindingsLoc loc' headLoc' bindingsLoc' : Location) :
    let x := letForm loc headLoc bindingsLoc xs body
    let y := letForm loc' headLoc' bindingsLoc' ys body
    ((Expr.ofForm scope x).result.isOk = false ∧ (Expr.ofForm scope y).result.isOk = false ∧
      (Expr.ofForm scope z).result.isOk = false) ∨
    ∃ e₁ e₂ e₃, (Expr.ofForm scope x).result = .ok e₁ ∧ (Expr.ofForm scope y).result = .ok e₂ ∧
      (Expr.ofForm scope z).result = .ok e₃ ∧
      ∀ limit c top w o w', o ≠ .exhausted →
        ((∃ fuel, perform limit fuel (.evaluate c top e₁) w = (o, w')) ↔
          ∃ fuel, perform limit fuel (.evaluate c top e₂) w = (o, w')) ∧
        ((∃ fuel, perform limit fuel (.evaluate c top e₁) w = (o, w')) ↔
          ∃ fuel, perform limit fuel (.evaluate c top e₃) w = (o, w')) := by
  intro x y
  obtain ⟨flat, hflat, hflatNames⟩ := letPairs_of_flat hxs bindingsLoc
  obtain ⟨pairs, hpairs, hpairsNames⟩ := letPairs_of_pairs hys bindingsLoc'
  have hx := toOption_ofForm_letForm hflat hflatNames scope loc headLoc body
  have hy := toOption_ofForm_letForm hpairs hpairsNames scope loc' headLoc' body
  have hz' := toOption_ofForm_nestedLets hz scope
  cases hcompile : compileLet? body scope bs with
  | none =>
    rw [hcompile, Option.map_none, ← Report.isOk_eq_false_iff] at hx hy hz'
    exact Or.inl ⟨hx, hy, hz'⟩
  | some r =>
    rw [hcompile, Option.map_some, ← Report.result_eq_ok_iff] at hx hy hz'
    have hr : r.1 ≠ [] := by
      intro hnil
      have hlength := length_of_compileLet? hcompile
      rw [hnil] at hlength
      cases hz <;> simp at hlength
    refine Or.inr ⟨_, _, _, hx, hy, hz', fun limit c top w o w' ho => ⟨Iff.rfl, ?_⟩⟩
    exact exists_perform_letIn_iff_nestLets hr top ho

def boundTwice : List (Bytes × Form) :=
  [(utf8 "x", .atom .unknown (.number (.integer 1))),
    (utf8 "x", .sequence .unknown .paren
      [.atom .unknown (.symbol (utf8 "+")), .atom .unknown (.symbol (utf8 "x")),
        .atom .unknown (.number (.integer 1))])]

theorem evaluate_let_sequential_boundTwice :
    let x : Form := .atom .unknown (.symbol (utf8 "x"))
    ∃ z, NestedLets x boundTwice z ∧ ∃ e, (Expr.ofForm [] z).result = .ok e ∧
      ∃ fuel, perform 1000 fuel (.evaluate ⟨.main, [], 0⟩ true e) .fresh =
        (.value (.integer 2), .fresh) := by
  intro x
  have hxs : FlatBindings boundTwice _ := .cons .unknown (.cons .unknown .nil)
  have hys : PairBindings boundTwice _ :=
    .cons .unknown .unknown (.cons .unknown .unknown .nil)
  have hz : NestedLets x boundTwice _ :=
    .cons .unknown .unknown .unknown .unknown (.last .unknown .unknown .unknown .unknown)
  refine ⟨_, hz, ?_⟩
  rcases evaluate_let_sequential hxs hys hz [] .unknown .unknown .unknown .unknown .unknown
    .unknown with ⟨hfail, -⟩ | ⟨e₁, e₂, e₃, h₁, -, h₃, hruns⟩
  · exact absurd hfail (by decide)
  · have hnested := (hruns 1000 ⟨.main, [], 0⟩ true .fresh (.value (.integer 2)) .fresh nofun).2
    refine ⟨e₃, h₃, hnested.mp ?_⟩
    obtain rfl := Except.ok.inj h₁
    exact ⟨5, rfl⟩

end Machine
end ClauseLisp
