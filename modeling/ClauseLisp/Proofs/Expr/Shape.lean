import ClauseLisp.Proofs.Builtin.Computed
import ClauseLisp.Proofs.Expr.Scoped
import Mathlib.Data.List.Forall2

/-! Shapes of compiled forms. Operations get the number of operands that they take, and expressions
nest as deep as the form they come from. The only rules that nest deeper are those for folds, which
are lists of any number of operands that are taken two at a time. -/

namespace ClauseLisp

namespace Expr

def children : Expr → List Expr
  | letIn bindings body => body :: bindings.map Binding.value
  | lambda clause => clause.body :: clause.guards
  | defineFunction _ _ clauses => clauses.flatMap fun c => c.body :: c.guards
  | sequence es => es
  | defineModule _ es => es
  | e => e.parts

def hasOperands : Expr → Bool
  | operation _ op operands => op.operands?.all (· == operands.length)
  | _ => true

/-- All operations in the expression have as many operands as they take. There is nothing else to
ask: the elements of a list carry their own marks for splicing, and no part of an expression or of
a pattern is left out. -/
inductive WellFormed : Expr → Prop where
  | node {e : Expr} : e.hasOperands = true → (∀ x ∈ e.children, WellFormed x) → WellFormed e

def nestsWithin : Nat → Expr → Bool
  | 0, _ => false
  | n + 1, e => e.children.all (nestsWithin n)

theorem nestsWithin_succ {n : Nat} {e : Expr} :
    e.nestsWithin (n + 1) = true ↔ ∀ x ∈ e.children, x.nestsWithin n = true := by
  rw [nestsWithin, List.all_eq_true]

theorem nestsWithin_mono {m n : Nat} {e : Expr} (h : e.nestsWithin m = true) (hmn : m ≤ n) :
    e.nestsWithin n = true := by
  induction m generalizing n e with
  | zero => exact Bool.noConfusion h
  | succ m ih =>
    obtain ⟨n, rfl⟩ : ∃ k, n = k + 1 := ⟨n - 1, by omega⟩
    rw [nestsWithin_succ] at h ⊢
    exact fun x hx => ih (h x hx) (by omega)

structure Shaped (n : Nat) (e : Expr) : Prop where
  wellFormed : e.WellFormed
  nests : e.nestsWithin n = true

theorem Shaped.mono {m n : Nat} {e : Expr} (h : Shaped m e) (hmn : m ≤ n) : Shaped n e :=
  ⟨h.wellFormed, nestsWithin_mono h.nests hmn⟩

theorem Shaped.node {n : Nat} {e : Expr} (hops : e.hasOperands = true)
    (h : ∀ x ∈ e.children, Shaped n x) : Shaped (n + 1) e :=
  ⟨.node hops fun x hx => (h x hx).wellFormed, nestsWithin_succ.mpr fun x hx => (h x hx).nests⟩

end Expr

namespace Form

def foldNames : List Bytes :=
  [utf8 "+", utf8 "-", utf8 "*", utf8 "/", utf8 "and", utf8 "or"]

/-- How many expressions one inside the other a sequence becomes. A fold becomes one for each
operand after the first. -/
def levels : Bracket → List Form → Nat
  | .paren, .atom _ (.symbol name) :: args =>
    if name ∈ foldNames then max 1 (args.length - 1) else 1
  | _, _ => 1

mutual

def spread : Form → Nat
  | atom .. => 1
  | sequence _ b xs => spreadAll xs + levels b xs
  | marked _ _ x => spread x + 1

def spreadAll : List Form → Nat
  | [] => 0
  | x :: xs => max (spread x) (spreadAll xs)

end

theorem levels_pos (b : Bracket) (xs : List Form) : 0 < levels b xs := by
  unfold levels
  split
  · split <;> omega
  · omega

theorem spread_pos (x : Form) : 0 < x.spread := by
  cases x with
  | sequence loc b xs =>
    have hpos := levels_pos b xs
    rw [spread]
    omega
  | _ => simp [spread]

theorem spreadAll_le_iff {xs : List Form} {n : Nat} :
    spreadAll xs ≤ n ↔ ∀ x ∈ xs, x.spread ≤ n := by
  induction xs with
  | nil => simp [spreadAll]
  | cons x xs ih => rw [spreadAll, Nat.max_le, ih, List.forall_mem_cons]

def Small (n k : Nat) (x : Form) : Prop := x.height ≤ n ∧ x.spread ≤ k

theorem hereditary_small (n k : Nat) : Hereditary (Small n k) where
  elements := by
    rintro loc b xs ⟨hheight, hspread⟩ x hx
    rw [height] at hheight
    rw [spread] at hspread
    exact ⟨heightAll_le_iff.mp (by omega) x hx, spreadAll_le_iff.mp (by omega) x hx⟩
  datum := by
    rintro loc m x ⟨hheight, hspread⟩
    rw [height] at hheight
    rw [spread] at hspread
    exact ⟨by omega, by omega⟩

end Form

namespace Expr

open Report (gives_pure gives_fail gives_any gives_forEach gives_ofExcept)
open Form (Small hereditary_small)

def Shapes (rule : Rule) (n : Nat) : Prop :=
  ∀ {scope x}, x.height ≤ n → (rule scope x).Gives (Shaped x.spread)

theorem shaped_leaf {n : Nat} {e : Expr} (hn : 0 < n) (hops : e.hasOperands = true)
    (h : e.children = []) : Shaped n e := by
  obtain ⟨n, rfl⟩ : ∃ k, n = k + 1 := ⟨n - 1, by omega⟩
  refine .node hops ?_
  rw [h]
  exact List.forall_mem_nil _

theorem length_forEach {α β : Type} (f : α → Report β) (as : List α) :
    (Report.forEach f as).Gives fun bs => bs.length = as.length := by
  induction as with
  | nil => exact gives_pure rfl
  | cons a as ih =>
    exact (gives_any _).bind fun b _ => ih.bind fun bs hbs => gives_pure (congrArg (· + 1) hbs)

section Rules

variable {rule : Rule} {n k : Nat} {scope : Scope} {loc : Location} {x : Form}
  {xs args : List Form}

theorem Shapes.inner (hr : Shapes rule n) (hx : Small n k x) :
    (rule scope x).Gives (Shaped k) :=
  (hr hx.1).mono fun _ he => he.mono hx.2

theorem Shapes.forEach (hr : Shapes rule n) (hxs : ∀ x ∈ xs, Small n k x) :
    (Report.forEach (rule scope) xs).Gives fun es =>
      es.length = xs.length ∧ ∀ e ∈ es, Shaped k e :=
  fun es hes => ⟨length_forEach _ xs es hes,
    gives_forEach (fun x hx => hr.inner (hxs x hx)) es hes⟩

theorem body_gives {R : Form → Expr → Prop} (h : ∀ x ∈ xs, ∀ scope, (rule scope x).Gives (R x)) :
    (body rule scope xs).Gives (List.Forall₂ R xs) := by
  induction xs generalizing scope with
  | nil => exact gives_pure .nil
  | cons x xs ih =>
    rw [List.forall_mem_cons] at h
    refine (h.1 scope).bind fun e he => ?_
    have hrest : ∀ inner, (body rule inner xs >>= fun es => pure (e :: es)).Gives
        (List.Forall₂ R (x :: xs)) :=
      fun inner => (ih h.2).bind fun es hes => gives_pure (.cons he hes)
    dsimp only
    split
    · exact (gives_any _).bind fun inner _ => hrest inner
    · exact hrest scope

theorem forall_mem_of_forall₂ {α β : Type} {P : β → Prop} {as : List α} {bs : List β}
    (h : List.Forall₂ (fun _ b => P b) as bs) : ∀ b ∈ bs, P b := by
  induction h with
  | nil => exact List.forall_mem_nil _
  | cons hb _ ih => exact List.forall_mem_cons.mpr ⟨hb, ih⟩

theorem Shapes.body (hr : Shapes rule n) (hxs : ∀ x ∈ xs, Small n k x) :
    (body rule scope xs).Gives fun es => ∀ e ∈ es, Shaped k e :=
  (body_gives fun x hx _ => hr.inner (hxs x hx)).mono fun _ hes => forall_mem_of_forall₂ hes

def ClauseShaped (k : Nat) (clause : Clause) : Prop :=
  ∀ e ∈ clause.body :: clause.guards, Shaped k e

theorem Shapes.clause (hr : Shapes rule n) {form : Bytes} {params body : Form}
    {guard : Option Form} (hparams : Small n k params) (hguard : ∀ g ∈ guard, Small n k g)
    (hbody : Small n k body) :
    (clause rule scope form params guard body).Gives (ClauseShaped k) := by
  unfold Expr.clause
  split
  · exact gives_fail _ _
  · rename_i xs hl
    have hxs := (hereditary_small n k).listed? hparams hl
    -- Guards that stand in patterns are parts of the parameters.
    have hpatterns : (Report.ofExcept (Pattern.ofForms xs).result).Gives
        fun r => ∀ g ∈ r.2, Small n k g :=
      gives_ofExcept fun r hr => Pattern.collects_ofForms (hereditary_small n k).toElementwise hxs r.1 r.2 hr
    refine hpatterns.bind fun r hguards => (gives_any _).bind fun inner _ => ?_
    have hall : ∀ g ∈ r.2 ++ guard.toList, Small n k g := by
      rw [List.forall_mem_append]
      exact ⟨hguards, by simpa using hguard⟩
    refine (hr.forEach hall).bind fun gs hgs => (hr.inner hbody).bind fun b hb => gives_pure ?_
    exact List.forall_mem_cons.mpr ⟨hb, hgs.2⟩

theorem Shapes.singleClause (hr : Shapes rule n) {form name : Bytes}
    (hxs : ∀ x ∈ xs, Small n k x) :
    (singleClause rule scope form name loc xs).Gives fun cs => ∀ c ∈ cs, ClauseShaped k c := by
  unfold Expr.singleClause
  split
  · refine (hr.clause (hxs _ (by simp)) (by simp) (hxs _ (by simp))).bind fun c hc => ?_
    exact gives_pure (List.forall_mem_singleton.mpr hc)
  · split
    · refine (hr.clause (hxs _ (by simp)) ?_ (hxs _ (by simp))).bind fun c hc => ?_
      · rintro _ ⟨⟩
        exact hxs _ (by simp)
      · exact gives_pure (List.forall_mem_singleton.mpr hc)
    · exact gives_fail _ _
  · exact gives_fail _ _

theorem Shapes.functionClauses (hr : Shapes rule n) {form name : Bytes}
    (hxs : ∀ x ∈ xs, Small n k x) :
    (functionClauses rule scope form name loc xs).Gives fun cs => ∀ c ∈ cs, ClauseShaped k c := by
  unfold Expr.functionClauses
  split
  · exact hr.singleClause hxs
  · rename_i parts hparts
    have hclauses : (Report.forEach (clauseOfParts rule scope form) parts).Gives
        fun cs => ∀ c ∈ cs, ClauseShaped k c := by
      refine gives_forEach fun p hp => ?_
      obtain ⟨x, hx, hpx⟩ := mem_of_mapM_eq_some hparts p hp
      obtain ⟨params, guard, body⟩ := p
      obtain ⟨hparams, hguard, hbody⟩ := (hereditary_small n k).clauseParts? (hxs x hx) hpx
      exact hr.clause hparams hguard hbody
    -- Each reading takes its clauses from parts of the forms.
    extract_lets reading
    clear_value reading
    cases reading with
    | ambiguous => exact gives_fail _ _
    | single => exact hr.singleClause hxs
    | clauses => exact hclauses

theorem Shapes.functionDefinition (hr : Shapes rule n) {exported : Bool}
    (hargs : ∀ x ∈ args, Small n k x) :
    (functionDefinition rule scope exported loc args).Gives (Shaped (k + 1)) := by
  match args with
  | [] => exact gives_fail _ _
  | [_] => exact gives_fail _ _
  | first :: x :: rest =>
    rw [List.forall_mem_cons] at hargs
    refine (gives_any _).bind fun name _ => (hr.functionClauses hargs.2).bind fun cs hcs =>
      gives_pure (.node rfl fun e he => ?_)
    obtain ⟨c, hc, hec⟩ := List.mem_flatMap.mp he
    exact hcs c hc e hec

theorem Shapes.lambdaExpression (hr : Shapes rule n) (hargs : ∀ x ∈ args, Small n k x) :
    (lambdaExpression rule scope loc args).Gives (Shaped (k + 1)) := by
  unfold Expr.lambdaExpression
  split
  · exact (hr.clause (hargs _ (by simp)) (by simp) (hargs _ (by simp))).bind fun c hc =>
      gives_pure (.node rfl hc)
  · split
    · refine (hr.clause (hargs _ (by simp)) ?_ (hargs _ (by simp))).bind fun c hc =>
        gives_pure (.node rfl hc)
      rintro _ ⟨⟩
      exact hargs _ (by simp)
    · exact gives_fail _ _
  · exact gives_fail _ _

theorem Shapes.definition (hr : Shapes rule n) (hargs : ∀ x ∈ args, Small n k x) :
    (definition rule scope loc args).Gives (Shaped (k + 1)) := by
  unfold Expr.definition
  split
  · refine (gives_any _).bind fun name _ => (hr.inner (hargs _ (by simp))).bind fun e he => ?_
    exact gives_pure (.node rfl (List.forall_mem_singleton.mpr he))
  · exact gives_fail _ _

theorem Shapes.moduleDefinition (hr : Shapes rule n) (hargs : ∀ x ∈ args, Small n k x) :
    (moduleDefinition rule scope loc args).Gives (Shaped (k + 1)) := by
  unfold Expr.moduleDefinition
  split
  · exact gives_fail _ _
  · rw [List.forall_mem_cons] at hargs
    exact (gives_any _).bind fun name _ => (hr.body hargs.2).bind fun es hes =>
      gives_pure (.node rfl hes)

theorem Shapes.letBindings (hr : Shapes rule n) {pairs : List (Form × Form)}
    (hpairs : ∀ p ∈ pairs, Small n k p.1 ∧ Small n k p.2) :
    (letBindings rule scope pairs).Gives fun r => ∀ b ∈ r.1, Shaped k b.value := by
  induction pairs generalizing scope with
  | nil => exact gives_pure (List.forall_mem_nil _)
  | cons p pairs ih =>
    rw [List.forall_mem_cons] at hpairs
    refine (gives_any _).bind fun name _ => (hr.inner hpairs.1.2).bind fun e he => ?_
    refine (gives_any _).bind fun inner _ => (ih hpairs.2).bind fun r hrest => ?_
    exact gives_pure (List.forall_mem_cons.mpr ⟨he, hrest⟩)

theorem Shapes.letExpression (hr : Shapes rule n) (hargs : ∀ x ∈ args, Small n k x) :
    (letExpression rule scope loc args).Gives (Shaped (k + 1)) := by
  unfold Expr.letExpression
  split
  · refine (letPairs_gives (hereditary_small n k).toElementwise (hargs _ (by simp))).bind fun pairs hpairs => ?_
    refine (hr.letBindings hpairs).bind fun r hbindings => ?_
    refine (hr.inner (hargs _ (by simp))).bind fun e he => gives_pure (.node rfl ?_)
    rw [children, List.forall_mem_cons, List.forall_mem_map]
    exact ⟨he, hbindings⟩
  · exact gives_fail _ _

theorem Shapes.ifExpression (hr : Shapes rule n) (hk : 0 < k) (hargs : ∀ x ∈ args, Small n k x) :
    (ifExpression rule scope loc args).Gives (Shaped (k + 1)) := by
  have hnil : Shaped k (.literal .nil) := shaped_leaf hk rfl rfl
  unfold Expr.ifExpression
  split
  · refine (hr.inner (hargs _ (by simp))).bind fun t ht =>
      (hr.inner (hargs _ (by simp))).bind fun y hy => gives_pure (.node rfl ?_)
    simpa [children, Expr.parts] using ⟨ht, hy, hnil⟩
  · refine (hr.inner (hargs _ (by simp))).bind fun t ht =>
      (hr.inner (hargs _ (by simp))).bind fun y hy =>
        (hr.inner (hargs _ (by simp))).bind fun z hz => gives_pure (.node rfl ?_)
    simpa [children, Expr.parts] using ⟨ht, hy, hz⟩
  · exact gives_fail _ _

theorem Shapes.condExpression (hr : Shapes rule n) (hargs : ∀ x ∈ args, Small n k x) :
    (condExpression rule scope loc args).Gives (Shaped (k + 1)) := by
  have hbranches : (Report.forEach (branch rule scope) args).Gives
      fun bs => ∀ b ∈ bs, Shaped k b.test ∧ Shaped k b.result := by
    refine gives_forEach fun x hx => ?_
    refine ((hereditary_small n k).clausePair (hargs x hx) _).bind fun p hp => ?_
    exact (hr.inner hp.1).bind fun t ht => (hr.inner hp.2).bind fun e he => gives_pure ⟨ht, he⟩
  refine hbranches.bind fun bs hbs => ?_
  have hcond : Shaped (k + 1) (.cond loc bs) := by
    refine .node rfl fun e he => ?_
    obtain ⟨b, hb, heb⟩ := List.mem_flatMap.mp he
    rcases List.mem_cons.mp heb with rfl | heb
    · exact (hbs b hb).1
    · exact List.mem_singleton.mp heb ▸ (hbs b hb).2
  split
  · exact (gives_any _).bind fun _ _ => gives_pure hcond
  · exact gives_pure hcond

theorem Shapes.caseExpression (hr : Shapes rule n) (hargs : ∀ x ∈ args, Small n k x) :
    (caseExpression rule scope loc args).Gives (Shaped (k + 1)) := by
  unfold Expr.caseExpression
  split
  · exact gives_fail _ _
  · rename_i scrutinee clauses
    rw [List.forall_mem_cons] at hargs
    have hchoices : (Report.forEach (choice rule scope) clauses).Gives
        fun cs => ∀ c ∈ cs, Shaped k c.body := by
      refine gives_forEach fun x hx => ?_
      refine ((hereditary_small n k).clausePair (hargs.2 x hx) _).bind fun p hp => ?_
      exact (hr.inner hp.2).bind fun e he => gives_pure he
    refine hchoices.bind fun cs hcs => (hr.inner hargs.1).bind fun e he => gives_pure ?_
    refine .node rfl (List.forall_mem_cons.mpr ⟨he, ?_⟩)
    simpa using hcs

theorem shaped_foldl {combine : Expr → Expr → Expr} {e : Expr} {es : List Expr}
    (hcombine : ∀ {a b k}, Shaped k a → Shaped k b → Shaped (k + 1) (combine a b))
    (he : Shaped k e) (hes : ∀ x ∈ es, Shaped k x) :
    Shaped (k + es.length) (es.foldl combine e) := by
  -- Each operand after the first adds one level.
  induction es generalizing e k with
  | nil => exact he
  | cons x es ih =>
    rw [List.forall_mem_cons] at hes
    -- The operands that follow are lower than what has been built so far.
    have hrest : ∀ y ∈ es, Shaped (k + 1) y := fun y hy => (hes.2 y hy).mono (Nat.le_succ k)
    have hfold := ih (hcombine he hes.1) hrest
    rwa [Nat.add_right_comm] at hfold

theorem Shapes.logical (hr : Shapes rule n) {form : Bytes} {combine : Expr → Expr → Expr}
    (hcombine : ∀ {a b k}, Shaped k a → Shaped k b → Shaped (k + 1) (combine a b))
    (hargs : ∀ x ∈ args, Small n k x) :
    (logical rule scope form combine loc args).Gives (Shaped (k + (args.length - 1))) := by
  unfold Expr.logical
  split
  · rw [List.forall_mem_cons] at hargs
    refine (hr.inner hargs.1).bind fun e he => (hr.forEach hargs.2).bind fun es hes =>
      gives_pure ?_
    have hfold := shaped_foldl hcombine he hes.2
    rwa [hes.1] at hfold
  · exact gives_fail _ _

mutual

theorem Shapes.template (hr : Shapes rule n) {x : Form} (hx : x.height ≤ n) :
    (template rule scope x).Gives (Shaped x.spread) := by
  match x with
  | .atom loc a =>
    cases a with
    | _ => exact gives_pure (shaped_leaf (Form.spread_pos _) rfl rfl)
  | .marked loc m y =>
    cases m with
    | unquote =>
      rw [Form.height] at hx
      exact (hr (by omega)).mono fun _ he => he.mono (Nat.le_succ _)
    | splice => exact gives_fail _ _
    | _ => exact gives_pure (shaped_leaf (Form.spread_pos _) rfl rfl)
  | .sequence loc b xs =>
    rw [Form.height] at hx
    have hxs : ∀ y ∈ xs, y.height ≤ n := Form.heightAll_le_iff.mp (by omega)
    have hlevels : Form.spreadAll xs + 1 ≤ (Form.sequence loc b xs).spread :=
      Nat.add_le_add_left (Form.levels_pos b xs) _
    rw [Expr.template.eq_def]
    dsimp only
    split
    · exact gives_pure (shaped_leaf (Form.spread_pos _) rfl rfl)
    · split
      · exact (hr.templateTuple hxs).bind fun es hes =>
          gives_pure ((Shaped.node (e := .makeTuple es) rfl hes).mono hlevels)
      · refine (hr.templateList hxs).bind fun es hes =>
          gives_pure ((Shaped.node rfl ?_).mono hlevels)
        simpa [children, Expr.parts] using hes

theorem Shapes.templateTuple (hr : Shapes rule n) {xs : List Form} (hxs : ∀ x ∈ xs, x.height ≤ n) :
    (templateTuple rule scope xs).Gives fun es => ∀ e ∈ es, Shaped (Form.spreadAll xs) e := by
  match xs with
  | [] => exact gives_pure (List.forall_mem_nil _)
  | x :: xs =>
    rw [List.forall_mem_cons] at hxs
    have hrest : ((Expr.template rule scope x) >>= fun e =>
        Expr.templateTuple rule scope xs >>= fun es => pure (e :: es)).Gives
        fun es => ∀ e ∈ es, Shaped (Form.spreadAll (x :: xs)) e := by
      refine (hr.template hxs.1).bind fun e he => (hr.templateTuple hxs.2).bind fun es hes => ?_
      refine gives_pure (List.forall_mem_cons.mpr ⟨he.mono (Nat.le_max_left _ _), ?_⟩)
      exact fun e' he' => (hes e' he').mono (Nat.le_max_right _ _)
    rw [Expr.templateTuple]
    split
    · exact (gives_fail _ _ (Q := fun _ => True)).bind fun _ _ => hrest
    · exact hrest

theorem Shapes.templateList (hr : Shapes rule n) {xs : List Form} (hxs : ∀ x ∈ xs, x.height ≤ n) :
    (templateList rule scope xs).Gives
      fun es => ∀ e ∈ es, Shaped (Form.spreadAll xs) e.value := by
  match xs with
  | [] => exact gives_pure (List.forall_mem_nil _)
  | x :: xs =>
    rw [List.forall_mem_cons] at hxs
    have hrest : ∀ spliced e, Shaped x.spread e → (Expr.templateList rule scope xs >>= fun es =>
        pure (⟨spliced, e⟩ :: es)).Gives
        fun es => ∀ e ∈ es, Shaped (Form.spreadAll (x :: xs)) e.value := by
      refine fun spliced e he => (hr.templateList hxs.2).bind fun es hes => gives_pure ?_
      refine List.forall_mem_cons.mpr ⟨he.mono (Nat.le_max_left _ _), ?_⟩
      exact fun e' he' => (hes e' he').mono (Nat.le_max_right _ _)
    rw [Expr.templateList]
    cases hsplice : spliced? x with
    | some y =>
      have hy := (hereditary_small n x.spread).spliced? ⟨hxs.1, Nat.le_refl _⟩ hsplice
      exact (hr.inner hy).bind (hrest _)
    | none => exact (hr.template hxs.1).bind (hrest _)

end

theorem checkCount_gives (form : Bytes) (least most : Nat) (loc : Location) (args : List Form) :
    (checkCount form least most loc args).Gives
      fun _ => least ≤ args.length ∧ args.length ≤ most := by
  unfold checkCount
  split
  · exact gives_fail _ _
  · exact gives_pure (by omega)

theorem operands?_of_mem_table : ∀ op ∈ Operation.table, op.operation.operands? =
    match op.arity with
    | .unary => some 1
    | .binary => some 2
    | .fold => some 2
    | .variadic => none := by
  decide

theorem mem_foldNames_of_fold : ∀ op ∈ Operation.table, op.arity = .fold →
    op.name ∈ Form.foldNames := by
  decide

theorem shaped_operation {op : Operation} {es : List Expr}
    (hops : ∀ m ∈ op.operands?, m = es.length) (h : ∀ e ∈ es, Shaped k e) :
    Shaped (k + 1) (.operation loc op es) := by
  refine .node ?_ h
  rw [hasOperands, Option.all_eq_true]
  exact fun m hm => beq_iff_eq.mpr (hops m hm)

theorem Shapes.operationCall (hr : Shapes rule n) {op : Operation.Entry}
    (hop : op ∈ Operation.table) {l : Nat} (hl : 0 < l)
    (hfold : op.arity = .fold → args.length - 1 ≤ l) (hargs : ∀ x ∈ args, Small n k x) :
    (operationCall rule scope loc args op).Gives (Shaped (k + l)) := by
  have hops := operands?_of_mem_table op hop
  have hall : (∀ m ∈ op.operation.operands?, m = args.length) →
      (Report.forEach (rule scope) args >>= fun es =>
        pure (.operation loc op.operation es)).Gives (Shaped (k + l)) := by
    refine fun hcount => (hr.forEach hargs).bind fun es hes => gives_pure ?_
    have hshaped : Shaped (k + 1) (.operation loc op.operation es) :=
      shaped_operation (hes.1 ▸ hcount) hes.2
    exact hshaped.mono (by omega)
  unfold Expr.operationCall
  cases harity : op.arity with
  | unary =>
    rw [harity] at hops
    refine (checkCount_gives op.name 1 1 loc args).bind fun _ hcount => hall ?_
    rw [hops]
    rintro _ ⟨⟩
    omega
  | binary =>
    rw [harity] at hops
    refine (checkCount_gives op.name 2 2 loc args).bind fun _ hcount => hall ?_
    rw [hops]
    rintro _ ⟨⟩
    omega
  | variadic =>
    rw [harity] at hops
    exact hall (by rw [hops]; exact fun _ h => absurd h (Option.some_ne_none _).symm)
  | fold =>
    rw [harity] at hops
    have hcombine : ∀ {a b k}, Shaped k a → Shaped k b →
        Shaped (k + 1) (.operation loc op.operation [a, b]) := by
      intro a b k ha hb
      refine shaped_operation ?_ (by simpa using ⟨ha, hb⟩)
      rw [hops]
      rintro _ ⟨⟩
      rfl
    have hlength := hfold harity
    -- One operand makes a negation, and two or more are folded.
    rcases args with _ | ⟨first, _ | ⟨second, rest⟩⟩
    · exact gives_fail _ _
    · dsimp only
      split
      · refine (hr.inner (hargs first (by simp))).bind fun e he => gives_pure ?_
        have hnegate : Shaped (k + 1) (.operation loc .negate [e]) :=
          shaped_operation (by rintro _ ⟨⟩; rfl) (List.forall_mem_singleton.mpr he)
        exact hnegate.mono (by omega)
      · exact gives_fail _ _
    · rw [List.forall_mem_cons] at hargs
      refine (hr.inner hargs.1).bind fun e he => (hr.forEach hargs.2).bind fun es hes =>
        gives_pure ?_
      have hshaped := shaped_foldl hcombine he hes.2
      rw [hes.1] at hshaped
      exact hshaped.mono (Nat.add_le_add_left hlength k)

theorem Shapes.fieldAccess (hr : Shapes rule n) (hk : 0 < k) {field : Bytes}
    (hargs : ∀ x ∈ args, Small n k x) :
    (fieldAccess rule scope loc field args).Gives (Shaped (k + 1)) := by
  unfold Expr.fieldAccess
  split
  · refine (hr.inner (hargs _ (by simp))).bind fun e he => gives_pure (shaped_operation ?_ ?_)
    · rintro _ ⟨⟩
      rfl
    · have hfield : Shaped k (.literal (.tag field)) := shaped_leaf hk rfl rfl
      simpa using ⟨he, hfield⟩
  · exact gives_fail _ _

theorem Shapes.specialForm (hr : Shapes rule n) {form : SpecialForm} (hk : 0 < k) {l : Nat}
    (hl : 0 < l) (hfold : form = .and ∨ form = .or → args.length - 1 ≤ l)
    (hargs : ∀ x ∈ args, Small n k x) :
    (specialForm rule scope loc args form).Gives (Shaped (k + l)) := by
  have honly : ∀ form, (onlyArgument form loc args).Gives (Small n k) :=
    fun form => onlyArgument_gives hargs form loc
  have hone : ∀ {e}, Shaped (k + 1) e → Shaped (k + l) e := fun he => he.mono (by omega)
  have hand : ∀ {a b k}, Shaped k a → Shaped k b → Shaped (k + 1) (Expr.and a b) :=
    fun ha hb => .node rfl (by simpa [children, Expr.parts] using ⟨ha, hb⟩)
  have hor : ∀ {a b k}, Shaped k a → Shaped k b → Shaped (k + 1) (Expr.or a b) :=
    fun ha hb => .node rfl (by simpa [children, Expr.parts] using ⟨ha, hb⟩)
  cases form with
  | defineFunction => exact (hr.functionDefinition hargs).mono fun _ => hone
  | definePrivate => exact (hr.functionDefinition hargs).mono fun _ => hone
  | defineModule => exact (hr.moduleDefinition hargs).mono fun _ => hone
  | sequence => exact (hr.body hargs).bind fun es hes => gives_pure (hone (.node rfl hes))
  | define => exact (hr.definition hargs).mono fun _ => hone
  | letIn => exact (hr.letExpression hargs).mono fun _ => hone
  | ifThen => exact (hr.ifExpression hk hargs).mono fun _ => hone
  | cond => exact (hr.condExpression hargs).mono fun _ => hone
  | caseOf => exact (hr.caseExpression hargs).mono fun _ => hone
  | lambda => exact (hr.lambdaExpression hargs).mono fun _ => hone
  | quote => exact (gives_any _).bind fun _ _ => gives_pure (shaped_leaf (by omega) rfl rfl)
  | quasiquote =>
    exact (honly _).bind fun x hx => (hr.template hx.1).mono fun _ he =>
      he.mono (Nat.le_add_right_of_le hx.2)
  | unquote =>
    exact (honly _).bind fun x hx => (hr.inner hx).mono fun _ he => he.mono (Nat.le_add_right k l)
  | splice =>
    exact (honly _).bind fun x hx => (hr.inner hx).mono fun _ he => he.mono (Nat.le_add_right k l)
  | attempt =>
    exact (honly _).bind fun x hx => (hr.inner hx).bind fun e he =>
      gives_pure (hone (.node rfl (List.forall_mem_singleton.mpr he)))
  | and =>
    exact (hr.logical hand hargs).mono fun _ he =>
      he.mono (Nat.add_le_add_left (hfold (Or.inl rfl)) k)
  | or =>
    exact (hr.logical hor hargs).mono fun _ he =>
      he.mono (Nat.add_le_add_left (hfold (Or.inr rfl)) k)
  | list =>
    refine (hr.forEach hargs).bind fun es hes => gives_pure (hone (.node rfl ?_))
    simpa [children, Expr.parts, plainElement] using hes.2

theorem mem_foldNames_of_ofName? {name : Bytes} {form : SpecialForm}
    (h : SpecialForm.ofName? name = some form) (hform : form = .and ∨ form = .or) :
    name ∈ Form.foldNames := by
  have htable : ∀ p ∈ SpecialForm.table, p.2 = .and ∨ p.2 = .or → p.1 ∈ Form.foldNames := by decide
  obtain ⟨before, after, happend, -⟩ := List.lookup_eq_some_iff.mp h
  exact htable (name, form) (by rw [happend]; simp) hform

theorem Shapes.callByName (hr : Shapes rule n) {name : Bytes} (hk : 0 < k) (loc' : Location)
    (hargs : ∀ x ∈ args, Small n k x) :
    (callByName rule scope loc name args).Gives
      (Shaped (k + Form.levels .paren (.atom loc' (.symbol name) :: args))) := by
  have hl := Form.levels_pos .paren (.atom loc' (.symbol name) :: args)
  have hfold : name ∈ Form.foldNames →
      args.length - 1 ≤ Form.levels .paren (.atom loc' (.symbol name) :: args) := by
    intro hname
    rw [Form.levels, if_pos hname]
    exact Nat.le_max_right _ _
  have hone : ∀ {e}, Shaped (k + 1) e →
      Shaped (k + Form.levels .paren (.atom loc' (.symbol name) :: args)) e :=
    fun he => he.mono (Nat.add_le_add_left hl k)
  unfold Expr.callByName
  split
  · rename_i form hform
    exact hr.specialForm hk hl (fun h => hfold (mem_foldNames_of_ofName? hform h)) hargs
  · split
    · rename_i op hop
      have hmem : op ∈ Operation.table := List.mem_of_find?_eq_some hop
      have hname : op.name = name := by simpa using List.find?_some hop
      refine hr.operationCall hmem hl (fun h => hfold ?_) hargs
      exact hname ▸ mem_foldNames_of_fold op hmem h
    · split
      · exact (hr.fieldAccess hk hargs).mono fun _ => hone
      · refine (hr.forEach hargs).bind fun es hes => ?_
        have htarget : Shaped k (.localRef name) := shaped_leaf hk rfl rfl
        split
        · exact gives_pure (hone (.node rfl (List.forall_mem_cons.mpr ⟨htarget, hes.2⟩)))
        · split
          · exact gives_pure (hone (.node rfl hes.2))
          · exact gives_pure (hone (.node rfl hes.2))

theorem Shapes.listExpression (hr : Shapes rule n) (hheight : ∀ x ∈ xs, x.height ≤ n) :
    (listExpression rule scope loc xs).Gives
      (Shaped (Form.spreadAll xs + Form.levels .paren xs)) := by
  match xs with
  | [] => exact gives_pure (shaped_leaf Nat.one_pos rfl rfl)
  | head :: args =>
    have hsmall : ∀ x ∈ head :: args, Small n (Form.spreadAll (head :: args)) x :=
      fun x hx => ⟨hheight x hx, Form.spreadAll_le_iff.mp (Nat.le_refl _) x hx⟩
    rw [List.forall_mem_cons] at hsmall
    have hk : 0 < Form.spreadAll (head :: args) :=
      Nat.lt_of_lt_of_le head.spread_pos (Nat.le_max_left _ _)
    have hone : ∀ {e}, Shaped (Form.spreadAll (head :: args) + 1) e →
        Shaped (Form.spreadAll (head :: args) + Form.levels .paren (head :: args)) e :=
      fun he => he.mono (Nat.add_le_add_left (Form.levels_pos _ _) _)
    -- Only lists that start with a symbol can be folds. All others are calls and one level.
    have hcall : (rule scope head >>= fun target =>
        Report.forEach (rule scope) args >>= fun es => pure (.apply loc target es)).Gives
        (Shaped (Form.spreadAll (head :: args) + Form.levels .paren (head :: args))) := by
      refine (hr.inner hsmall.1).bind fun e he => (hr.forEach hsmall.2).bind fun es hes => ?_
      exact gives_pure (hone (.node rfl (List.forall_mem_cons.mpr ⟨he, hes.2⟩)))
    cases head with
    | atom loc' a =>
      cases a with
      | symbol name => exact hr.callByName hk loc' hsmall.2
      | keyword field => exact (hr.fieldAccess hk hsmall.2).mono fun _ => hone
      | interpolation name => exact hcall
      | _ => exact gives_fail _ _
    | sequence _ b _ =>
      cases b with
      | paren => exact hcall
      | _ => exact gives_fail _ _
    | marked _ m _ =>
      cases m with
      | unquote => exact hcall
      | _ => exact gives_fail _ _

theorem Shapes.formExpression (hr : Shapes rule n) {x : Form} (hheight : x.height ≤ n + 1) :
    (formExpression rule scope x).Gives (Shaped x.spread) := by
  match x with
  | .atom loc a =>
    cases a with
    | symbol name =>
      refine gives_pure ?_
      split <;> exact shaped_leaf Nat.one_pos rfl rfl
    | _ => exact gives_pure (shaped_leaf Nat.one_pos rfl rfl)
  | .marked loc m y =>
    have hy : y.height ≤ n := by
      rw [Form.height] at hheight
      omega
    -- Marks take up a level without becoming an expression.
    have hup : ∀ {e}, Shaped y.spread e → Shaped (Form.marked loc m y).spread e :=
      fun he => he.mono (Nat.le_succ _)
    cases m with
    | quote => exact gives_pure (shaped_leaf (Form.spread_pos _) rfl rfl)
    | quasiquote => exact (hr.template hy).mono fun _ => hup
    | unquote => exact (hr hy).mono fun _ => hup
    | splice => exact (hr hy).mono fun _ => hup
  | .sequence loc b xs =>
    have hheights : ∀ y ∈ xs, y.height ≤ n := by
      rw [Form.height] at hheight
      exact Form.heightAll_le_iff.mp (by omega)
    have hsmall : ∀ y ∈ xs, Small n (Form.spreadAll xs) y :=
      fun y hy => ⟨hheights y hy, Form.spreadAll_le_iff.mp (Nat.le_refl _) y hy⟩
    cases b with
    | paren => exact hr.listExpression hheights
    | square =>
      refine (hr.forEach hsmall).bind fun es hes => gives_pure (.node rfl ?_)
      simpa [children, Expr.parts, plainElement] using hes.2
    | brace => exact (hr.forEach hsmall).bind fun es hes => gives_pure (.node rfl hes.2)

end Rules

theorem shapes_ofFormWithin (n : Nat) : Shapes (ofFormWithin n) n := by
  induction n with
  | zero =>
    intro scope x hheight
    exact absurd hheight (Nat.not_le_of_lt (height_pos x))
  | succ n ih => exact fun hheight => ih.formExpression hheight

theorem shaped_ofForm (scope : Scope) (x : Form) : (ofForm scope x).Gives (Shaped x.spread) :=
  shapes_ofFormWithin x.height (Nat.le_refl _)

end Expr
end ClauseLisp
