import ClauseLisp.Proofs.Expr.Parts

/-! Scopes of expressions. The main statement, `Expr.scoped_ofProgram`, is that programs with
definitions in their places compile to expressions that refer only to names that are bound around
them. -/

namespace ClauseLisp.Expr

open Report (gives_pure gives_fail gives_any gives_forEach gives_ofExcept)
open Form (Inner hereditary_inner)

def bound : Expr → List Bytes
  | define name _ => [name]
  | _ => []

def isUniform : Expr → Bool
  | localRef _ => false
  | letIn .. => false
  | lambda _ => false
  | defineFunction .. => false
  | sequence _ => false
  | defineModule .. => false
  | _ => true

/-- An expression at a place refers only to names of the scope and to those that it binds itself.
Functions and modules are defined only where that is possible. -/
inductive Scoped : Place → Scope → Expr → Prop where
  | localRef {place scope name} : name ∈ scope → Scoped place scope (.localRef name)
  | parts {place scope e} : e.isUniform = true → (∀ x ∈ e.parts, Scoped .inside scope x) →
      Scoped place scope e
  | letNil {place scope body} : Scoped .inside scope body → Scoped place scope (.letIn [] body)
  | letCons {place scope b bs body} : Scoped .inside scope b.value →
      Scoped .inside (b.name :: scope) (.letIn bs body) → Scoped place scope (.letIn (b :: bs) body)
  | lambda {place scope clause} :
      (∀ e ∈ clause.body :: clause.guards,
        Scoped .inside (Pattern.namesAll clause.parameters ++ scope) e) →
      Scoped place scope (.lambda clause)
  | defineFunction {place scope name exported clauses} : place ≠ .inside →
      (∀ clause ∈ clauses, ∀ e ∈ clause.body :: clause.guards,
        Scoped .inside (Pattern.namesAll clause.parameters ++ scope) e) →
      Scoped place scope (.defineFunction name exported clauses)
  | sequenceNil {place scope} : Scoped place scope (.sequence [])
  | sequenceCons {place scope e es} : Scoped place scope e →
      Scoped place (e.bound ++ scope) (.sequence es) → Scoped place scope (.sequence (e :: es))
  | defineModule {scope name es} : Scoped .module scope (.sequence es) →
      Scoped .main scope (.defineModule name es)

def ClauseScoped (scope : Scope) (clause : Clause) : Prop :=
  ∀ e ∈ clause.body :: clause.guards,
    Scoped .inside (Pattern.namesAll clause.parameters ++ scope) e

theorem append_subset_append (names : List Bytes) {scope scope' : Scope} (h : scope ⊆ scope') :
    names ++ scope ⊆ names ++ scope' :=
  List.append_subset.mpr ⟨List.subset_append_left _ _, List.subset_append_of_subset_right _ h⟩

theorem Scoped.mono {place : Place} {scope scope' : Scope} {e : Expr} (h : Scoped place scope e)
    (hs : scope ⊆ scope') : Scoped place scope' e := by
  induction h generalizing scope' with
  | localRef hname => exact .localRef (hs hname)
  | parts he _ ih => exact .parts he fun x hx => ih x hx hs
  | letNil _ ih => exact .letNil (ih hs)
  | letCons _ _ ihvalue ihrest => exact .letCons (ihvalue hs) (ihrest (List.cons_subset_cons _ hs))
  | lambda _ ih => exact .lambda fun e he => ih e he (append_subset_append _ hs)
  | defineFunction hplace _ ih =>
    exact .defineFunction hplace fun clause hc e he =>
      ih clause hc e he (append_subset_append _ hs)
  | sequenceNil => exact .sequenceNil
  | sequenceCons _ _ ihfirst ihrest =>
    exact .sequenceCons (ihfirst hs) (ihrest (append_subset_append _ hs))
  | defineModule _ ih => exact .defineModule (ih hs)

theorem Scoped.of_parts {place : Place} {scope : Scope} {e x : Expr} (h : Scoped place scope e)
    (hx : x ∈ e.parts) : Scoped .inside scope x := by
  cases h with
  | parts _ hparts => exact hparts x hx
  | _ => simp [Expr.parts] at hx

structure Scopes (rule : Rule) (n : Nat) : Prop where
  keeps : ∀ {place scope x}, x.height ≤ n → x.placed place = true →
    (rule scope x).Gives (Scoped place scope)
  defines : ∀ {scope x name}, x.height ≤ n → definedName? x = some name →
    (rule scope x).Gives fun e => e.bound = [name]

section Rules

variable {rule : Rule} {n : Nat} {place : Place} {scope : Scope} {loc : Location} {x : Form}
  {xs args : List Form}

theorem Scopes.anywhere (hr : Scopes rule n) (hx : Inner n x) :
    (rule scope x).Gives fun e => ∀ place, Scoped place scope e :=
  fun e he place => hr.keeps hx.2 (Form.placed_of_inside hx.1 place) e he

theorem Scopes.inner (hr : Scopes rule n) (hx : Inner n x) :
    (rule scope x).Gives (Scoped .inside scope) :=
  hr.keeps hx.2 hx.1

theorem Scopes.forEach (hr : Scopes rule n) (hxs : ∀ x ∈ xs, Inner n x) :
    (Report.forEach (rule scope) xs).Gives fun es => ∀ e ∈ es, Scoped .inside scope e :=
  gives_forEach fun x hx => hr.inner (hxs x hx)

theorem result_bindName (scope : Scope) (name : Bytes) (loc : Location) :
    (bindName scope name loc).result = .ok (name :: scope) := by
  unfold bindName
  split <;> rfl

theorem bindName_gives (scope : Scope) (name : Bytes) (loc : Location) :
    (bindName scope name loc).Gives (· = name :: scope) := by
  intro inner h
  rw [result_bindName] at h
  exact (Except.ok.inj h).symm

theorem result_bindNames (loc : Location) (scope : Scope) (names : List Bytes) :
    (bindNames loc scope names).result = .ok (names.reverse ++ scope) := by
  induction names generalizing scope with
  | nil => rfl
  | cons name names ih =>
    rw [bindNames]
    simp only [Bind.bind, result_bindName, ih, List.reverse_cons, List.append_assoc,
      List.singleton_append]

theorem bindNames_gives (loc : Location) (scope : Scope) (names : List Bytes) :
    (bindNames loc scope names).Gives (· = names.reverse ++ scope) := by
  intro inner h
  rw [result_bindNames] at h
  exact (Except.ok.inj h).symm

theorem Scopes.body (hr : Scopes rule n) (hheight : ∀ x ∈ xs, x.height ≤ n)
    (hplaced : ∀ x ∈ xs, x.placed place = true) :
    (body rule scope xs).Gives fun es => Scoped place scope (.sequence es) := by
  induction xs generalizing scope with
  | nil => exact gives_pure .sequenceNil
  | cons x xs ih =>
    rw [List.forall_mem_cons] at hheight hplaced
    have hfirst : (rule scope x).Gives fun e => Scoped place scope e ∧
        ∀ name, definedName? x = some name → e.bound = [name] :=
      fun e he => ⟨hr.keeps hheight.1 hplaced.1 e he,
        fun name hname => hr.defines hheight.1 hname e he⟩
    refine hfirst.bind fun e he => ?_
    -- The rest sees no other names than those that are bound once the first expression is evaluated.
    have hinner : ∀ inner, inner ⊆ e.bound ++ scope →
        (body rule inner xs >>= fun es => pure (e :: es)).Gives
          fun es => Scoped place scope (.sequence es) := by
      intro inner hinner
      refine (ih hheight.2 hplaced.2).bind fun es hes => gives_pure ?_
      exact .sequenceCons he.1 (hes.mono hinner)
    cases hname : definedName? x with
    | none => exact hinner scope (List.subset_append_right _ _)
    | some name =>
      refine (bindName_gives scope name x.loc).bind ?_
      rintro _ rfl
      exact hinner _ (by rw [he.2 name hname]; exact List.Subset.refl _)

theorem Scopes.clause (hr : Scopes rule n) {form : Bytes} {params body : Form}
    {guard : Option Form} (hparams : Inner n params) (hguard : ∀ g ∈ guard, Inner n g)
    (hbody : Inner n body) :
    (clause rule scope form params guard body).Gives (ClauseScoped scope) := by
  unfold Expr.clause
  split
  · exact gives_fail _ _
  · rename_i xs hl
    have hxs := (hereditary_inner n).listed? hparams hl
    have hpatterns : (Report.ofExcept (Pattern.ofForms xs).result).Gives
        fun r => ∀ g ∈ r.2, Inner n g :=
      gives_ofExcept fun r hr =>
        Pattern.collects_ofForms (hereditary_inner n).toElementwise hxs r.1 r.2 hr
    refine hpatterns.bind fun r hguards => ?_
    refine (bindNames_gives params.loc scope (Pattern.namesAll r.1)).bind ?_
    rintro _ rfl
    have hsubset : (Pattern.namesAll r.1).reverse ++ scope ⊆ Pattern.namesAll r.1 ++ scope := by
      intro name hname
      simpa using hname
    have hall : ∀ g ∈ r.2 ++ guard.toList, Inner n g := by
      rw [List.forall_mem_append]
      exact ⟨hguards, by simpa using hguard⟩
    refine (hr.forEach hall).bind fun gs hgs => (hr.inner hbody).bind fun b hb => gives_pure ?_
    exact List.forall_mem_cons.mpr ⟨hb.mono hsubset, fun g hg => (hgs g hg).mono hsubset⟩

theorem Scopes.singleClause (hr : Scopes rule n) {form name : Bytes}
    (hxs : ∀ x ∈ xs, Inner n x) :
    (singleClause rule scope form name loc xs).Gives fun cs => ∀ c ∈ cs, ClauseScoped scope c := by
  unfold Expr.singleClause
  split
  · refine (hr.clause (hxs _ (by simp)) (by simp) (hxs _ (by simp))).bind fun c hc => ?_
    exact gives_pure (List.forall_mem_singleton.mpr hc)
  · split
    · refine (hr.clause (hxs _ (by simp)) ?_ (hxs _ (by simp))).bind fun c hc => ?_
      · rintro _ ⟨⟩
        exact hxs _ (by simp)
      · exact gives_pure (List.forall_mem_singleton.mpr hc)
    · exact gives_fail _ _
  · exact gives_fail _ _

theorem Scopes.functionClauses (hr : Scopes rule n) {form name : Bytes}
    (hxs : ∀ x ∈ xs, Inner n x) :
    (functionClauses rule scope form name loc xs).Gives fun cs =>
      ∀ c ∈ cs, ClauseScoped scope c := by
  unfold Expr.functionClauses
  split
  · exact hr.singleClause hxs
  · rename_i parts hparts
    have hclauses : (Report.forEach (clauseOfParts rule scope form) parts).Gives
        fun cs => ∀ c ∈ cs, ClauseScoped scope c := by
      refine gives_forEach fun p hp => ?_
      obtain ⟨x, hx, hpx⟩ := mem_of_mapM_eq_some hparts p hp
      obtain ⟨params, guard, body⟩ := p
      obtain ⟨hparams, hguard, hbody⟩ := (hereditary_inner n).clauseParts? (hxs x hx) hpx
      exact hr.clause hparams hguard hbody
    -- All three readings are in scope, so it does not matter which one is taken.
    extract_lets reading
    clear_value reading
    cases reading with
    | ambiguous => exact gives_fail _ _
    | single => exact hr.singleClause hxs
    | clauses => exact hclauses

theorem Scopes.functionDefinition (hr : Scopes rule n) {exported : Bool}
    (hplace : place ≠ .inside) (hargs : ∀ x ∈ args, Inner n x) :
    (functionDefinition rule scope exported loc args).Gives (Scoped place scope) := by
  match args with
  | [] => exact gives_fail _ _
  | [_] => exact gives_fail _ _
  | first :: x :: rest =>
    rw [List.forall_mem_cons] at hargs
    exact (gives_any _).bind fun name _ => (hr.functionClauses hargs.2).bind fun cs hcs =>
      gives_pure (.defineFunction hplace hcs)

theorem Scopes.lambdaExpression (hr : Scopes rule n) (hargs : ∀ x ∈ args, Inner n x) :
    (lambdaExpression rule scope loc args).Gives (Scoped place scope) := by
  unfold Expr.lambdaExpression
  split
  · exact (hr.clause (hargs _ (by simp)) (by simp) (hargs _ (by simp))).bind fun c hc =>
      gives_pure (.lambda hc)
  · split
    · refine (hr.clause (hargs _ (by simp)) ?_ (hargs _ (by simp))).bind fun c hc =>
        gives_pure (.lambda hc)
      rintro _ ⟨⟩
      exact hargs _ (by simp)
    · exact gives_fail _ _
  · exact gives_fail _ _

theorem Scopes.definition (hr : Scopes rule n) (hargs : ∀ x ∈ args, Inner n x) :
    (definition rule scope loc args).Gives (Scoped place scope) := by
  unfold Expr.definition
  split
  · refine (gives_any _).bind fun name _ => (hr.inner (hargs _ (by simp))).bind fun e he => ?_
    exact gives_pure (.parts rfl (List.forall_mem_singleton.mpr he))
  · exact gives_fail _ _

theorem Scopes.moduleDefinition (hr : Scopes rule n) (hheight : ∀ x ∈ args, x.height ≤ n)
    (hplaced : ∀ x ∈ args.tail, x.placed .module = true) :
    (moduleDefinition rule scope loc args).Gives (Scoped .main scope) := by
  unfold Expr.moduleDefinition
  split
  · exact gives_fail _ _
  · rw [List.forall_mem_cons] at hheight
    exact (gives_any _).bind fun name _ => (hr.body hheight.2 hplaced).bind fun es hes =>
      gives_pure (.defineModule hes)

theorem Scopes.letBindings (hr : Scopes rule n) {pairs : List (Form × Form)}
    (hpairs : ∀ p ∈ pairs, Inner n p.1 ∧ Inner n p.2) :
    (letBindings rule scope pairs).Gives fun r =>
      ∀ body, Scoped .inside r.2 body → Scoped .inside scope (.letIn r.1 body) := by
  induction pairs generalizing scope with
  | nil => exact gives_pure fun _ h => .letNil h
  | cons p pairs ih =>
    rw [List.forall_mem_cons] at hpairs
    refine (gives_any _).bind fun name _ => (hr.inner hpairs.1.2).bind fun e he => ?_
    refine (bindName_gives scope name p.1.loc).bind ?_
    rintro _ rfl
    refine (ih hpairs.2).bind fun r hrest => gives_pure fun body hbody => ?_
    exact .letCons he (hrest body hbody)

theorem Scoped.anywhere {bs : List Binding} {body : Expr}
    (h : Scoped .inside scope (.letIn bs body)) : Scoped place scope (.letIn bs body) := by
  cases h with
  | parts h => simp [isUniform] at h
  | letNil h => exact .letNil h
  | letCons h h' => exact .letCons h h'

theorem Scopes.letExpression (hr : Scopes rule n) (hargs : ∀ x ∈ args, Inner n x) :
    (letExpression rule scope loc args).Gives (Scoped place scope) := by
  unfold Expr.letExpression
  split
  · refine (letPairs_gives (hereditary_inner n).toElementwise
      (hargs _ (by simp))).bind fun pairs hpairs => ?_
    refine (hr.letBindings hpairs).bind fun r hbindings => ?_
    refine (hr.inner (hargs _ (by simp))).bind fun e he => gives_pure ?_
    exact (hbindings e he).anywhere
  · exact gives_fail _ _

theorem Scopes.ifExpression (hr : Scopes rule n) (hargs : ∀ x ∈ args, Inner n x) :
    (ifExpression rule scope loc args).Gives (Scoped place scope) := by
  have hnil : Scoped .inside scope (.literal .nil) := .parts rfl (List.forall_mem_nil _)
  unfold Expr.ifExpression
  split
  · refine (hr.inner (hargs _ (by simp))).bind fun t ht =>
      (hr.inner (hargs _ (by simp))).bind fun y hy => gives_pure (.parts rfl ?_)
    simpa [Expr.parts] using ⟨ht, hy, hnil⟩
  · refine (hr.inner (hargs _ (by simp))).bind fun t ht =>
      (hr.inner (hargs _ (by simp))).bind fun y hy =>
        (hr.inner (hargs _ (by simp))).bind fun z hz => gives_pure (.parts rfl ?_)
    simpa [Expr.parts] using ⟨ht, hy, hz⟩
  · exact gives_fail _ _

theorem Scopes.condExpression (hr : Scopes rule n) (hargs : ∀ x ∈ args, Inner n x) :
    (condExpression rule scope loc args).Gives (Scoped place scope) := by
  have hbranches : (Report.forEach (branch rule scope) args).Gives
      fun bs => ∀ b ∈ bs, Scoped .inside scope b.test ∧ Scoped .inside scope b.result := by
    refine gives_forEach fun x hx => ?_
    refine ((hereditary_inner n).clausePair (hargs x hx) _).bind fun p hp => ?_
    exact (hr.inner hp.1).bind fun t ht => (hr.inner hp.2).bind fun e he => gives_pure ⟨ht, he⟩
  refine hbranches.bind fun bs hbs => ?_
  have hcond : Scoped place scope (.cond loc bs) := by
    refine .parts rfl fun e he => ?_
    obtain ⟨b, hb, heb⟩ := List.mem_flatMap.mp he
    rcases List.mem_cons.mp heb with rfl | heb
    · exact (hbs b hb).1
    · exact List.mem_singleton.mp heb ▸ (hbs b hb).2
  split
  · exact (gives_any _).bind fun _ _ => gives_pure hcond
  · exact gives_pure hcond

theorem Scopes.caseExpression (hr : Scopes rule n) (hargs : ∀ x ∈ args, Inner n x) :
    (caseExpression rule scope loc args).Gives (Scoped place scope) := by
  unfold Expr.caseExpression
  split
  · exact gives_fail _ _
  · rename_i scrutinee clauses
    rw [List.forall_mem_cons] at hargs
    have hchoices : (Report.forEach (choice rule scope) clauses).Gives
        fun cs => ∀ c ∈ cs, Scoped .inside scope c.body := by
      refine gives_forEach fun x hx => ?_
      refine ((hereditary_inner n).clausePair (hargs.2 x hx) _).bind fun p hp => ?_
      exact (hr.inner hp.2).bind fun e he => gives_pure he
    refine hchoices.bind fun cs hcs => (hr.inner hargs.1).bind fun e he => gives_pure ?_
    refine .parts rfl (List.forall_mem_cons.mpr ⟨he, ?_⟩)
    simpa using hcs

theorem scoped_literal (d : Datum) : Scoped place scope (.literal d) :=
  .parts rfl (List.forall_mem_nil _)

theorem scoped_foldl {combine : Expr → Expr → Expr} {e : Expr} {es : List Expr}
    (hcombine : ∀ a b place, Scoped .inside scope a → Scoped .inside scope b →
      Scoped place scope (combine a b))
    (he : ∀ place, Scoped place scope e) (hes : ∀ x ∈ es, Scoped .inside scope x) :
    Scoped place scope (es.foldl combine e) := by
  induction es generalizing e with
  | nil => exact he place
  | cons x es ih =>
    rw [List.forall_mem_cons] at hes
    exact ih (fun place => hcombine e x place (he .inside) hes.1) hes.2

theorem Scopes.logical (hr : Scopes rule n) {form : Bytes} {combine : Expr → Expr → Expr}
    (hcombine : ∀ a b place, Scoped .inside scope a → Scoped .inside scope b →
      Scoped place scope (combine a b)) (hargs : ∀ x ∈ args, Inner n x) :
    (logical rule scope form combine loc args).Gives (Scoped place scope) := by
  unfold Expr.logical
  split
  · rw [List.forall_mem_cons] at hargs
    exact (hr.anywhere hargs.1).bind fun e he => (hr.forEach hargs.2).bind fun es hes =>
      gives_pure (scoped_foldl hcombine he hes)
  · exact gives_fail _ _

mutual

theorem Scopes.template (hr : Scopes rule n) {x : Form} (hx : Inner n x) :
    (template rule scope x).Gives fun e => ∀ place, Scoped place scope e := by
  match x with
  | .atom loc a =>
    cases a with
    | interpolation name => simp [Form.Inner, Form.placed] at hx
    | _ => exact gives_pure fun _ => scoped_literal _
  | .marked loc m y =>
    cases m with
    | unquote => exact hr.anywhere ((hereditary_inner n).datum hx)
    | splice => exact gives_fail _ _
    | _ => exact gives_pure fun _ => scoped_literal _
  | .sequence loc b xs =>
    have hxs := (hereditary_inner n).elements hx
    rw [Expr.template.eq_def]
    dsimp only
    split
    · exact gives_pure fun _ => scoped_literal _
    · split
      · exact (hr.templateTuple hxs).bind fun es hes => gives_pure fun _ => .parts rfl hes
      · refine (hr.templateList hxs).bind fun es hes => gives_pure fun _ => .parts rfl ?_
        simpa [Expr.parts] using hes

theorem Scopes.templateTuple (hr : Scopes rule n) {xs : List Form} (hxs : ∀ x ∈ xs, Inner n x) :
    (templateTuple rule scope xs).Gives fun es => ∀ e ∈ es, Scoped .inside scope e := by
  match xs with
  | [] => exact gives_pure (List.forall_mem_nil _)
  | x :: xs =>
    rw [List.forall_mem_cons] at hxs
    have hrest : ((Expr.template rule scope x) >>= fun e =>
        Expr.templateTuple rule scope xs >>= fun es => pure (e :: es)).Gives
        fun es => ∀ e ∈ es, Scoped .inside scope e :=
      (hr.template hxs.1).bind fun e he => (hr.templateTuple hxs.2).bind fun es hes =>
        gives_pure (List.forall_mem_cons.mpr ⟨he .inside, hes⟩)
    rw [Expr.templateTuple]
    split
    · exact (gives_fail _ _ (Q := fun _ => True)).bind fun _ _ => hrest
    · exact hrest

theorem Scopes.templateList (hr : Scopes rule n) {xs : List Form} (hxs : ∀ x ∈ xs, Inner n x) :
    (templateList rule scope xs).Gives fun es => ∀ e ∈ es, Scoped .inside scope e.value := by
  match xs with
  | [] => exact gives_pure (List.forall_mem_nil _)
  | x :: xs =>
    rw [List.forall_mem_cons] at hxs
    have hrest : ∀ e, Scoped .inside scope e → (Expr.templateList rule scope xs >>= fun es =>
        pure (⟨(spliced? x).isSome, e⟩ :: es)).Gives
        fun es => ∀ e ∈ es, Scoped .inside scope e.value :=
      fun e he => (hr.templateList hxs.2).bind fun es hes =>
        gives_pure (List.forall_mem_cons.mpr ⟨he, hes⟩)
    rw [Expr.templateList]
    cases hsplice : spliced? x with
    | some y =>
      rw [hsplice] at hrest
      exact (hr.inner ((hereditary_inner n).spliced? hxs.1 hsplice)).bind hrest
    | none =>
      rw [hsplice] at hrest
      exact (hr.template hxs.1).bind fun e he => hrest e (he .inside)

end

theorem scoped_operation {op : Operation} {es : List Expr} (h : ∀ e ∈ es, Scoped .inside scope e) :
    Scoped place scope (.operation loc op es) :=
  .parts rfl h

theorem Scopes.operationCall (hr : Scopes rule n) {op : Operation.Entry}
    (hargs : ∀ x ∈ args, Inner n x) :
    (operationCall rule scope loc args op).Gives (Scoped place scope) := by
  have hall : (Report.forEach (rule scope) args >>= fun es =>
      pure (.operation loc op.operation es)).Gives (Scoped place scope) :=
    (hr.forEach hargs).bind fun es hes => gives_pure (scoped_operation hes)
  unfold Expr.operationCall
  split
  · exact (gives_any _).bind fun _ _ => hall
  · exact (gives_any _).bind fun _ _ => hall
  · exact hall
  · split
    · rw [List.forall_mem_cons] at hargs
      refine (hr.anywhere hargs.1).bind fun e he => (hr.forEach hargs.2).bind fun es hes =>
        gives_pure (scoped_foldl ?_ he hes)
      exact fun a b place ha hb => scoped_operation (by simpa using ⟨ha, hb⟩)
    · split
      · exact (hr.inner (hargs _ (by simp))).bind fun e he =>
          gives_pure (scoped_operation (List.forall_mem_singleton.mpr he))
      · exact gives_fail _ _
    · exact gives_fail _ _

theorem Scopes.fieldAccess (hr : Scopes rule n) {field : Bytes} (hargs : ∀ x ∈ args, Inner n x) :
    (fieldAccess rule scope loc field args).Gives (Scoped place scope) := by
  unfold Expr.fieldAccess
  split
  · refine (hr.inner (hargs _ (by simp))).bind fun e he => gives_pure (scoped_operation ?_)
    simpa using ⟨he, scoped_literal _⟩
  · exact gives_fail _ _

theorem Scopes.specialForm (hr : Scopes rule n) {form : SpecialForm}
    (hheight : ∀ x ∈ args, x.height ≤ n)
    (hplaced : Form.argsPlaced place args (some form) = true) :
    (specialForm rule scope loc args form).Gives (Scoped place scope) := by
  have hinner : Form.placedAll .inside args = true → ∀ x ∈ args, Inner n x :=
    fun h x hx => ⟨Form.placedAll_iff.mp h x hx, hheight x hx⟩
  have honly : Form.placedAll .inside args = true →
      ∀ form, (onlyArgument form loc args).Gives (Inner n) :=
    fun h form => onlyArgument_gives (hinner h) form loc
  have hpair : ∀ {a b : Expr}, Scoped .inside scope a → Scoped .inside scope b →
      ∀ x ∈ [a, b], Scoped .inside scope x := by
    intro a b ha hb
    simpa using ⟨ha, hb⟩
  cases form with
  | defineFunction =>
    obtain ⟨hplace, hargs⟩ := by simpa [Form.argsPlaced] using hplaced
    exact hr.functionDefinition hplace (hinner hargs)
  | definePrivate =>
    obtain ⟨hplace, hargs⟩ := by simpa [Form.argsPlaced] using hplaced
    exact hr.functionDefinition hplace (hinner hargs)
  | defineModule =>
    cases args with
    | nil => exact gives_fail _ _
    | cons name forms =>
      obtain ⟨⟨rfl, -⟩, hforms⟩ := by simpa [Form.argsPlaced] using hplaced
      exact hr.moduleDefinition hheight (Form.placedAll_iff.mp hforms)
  | sequence =>
    exact (hr.body hheight (Form.placedAll_iff.mp hplaced)).bind fun es hes => gives_pure hes
  | define => exact hr.definition (hinner hplaced)
  | letIn => exact hr.letExpression (hinner hplaced)
  | ifThen => exact hr.ifExpression (hinner hplaced)
  | cond => exact hr.condExpression (hinner hplaced)
  | caseOf => exact hr.caseExpression (hinner hplaced)
  | lambda => exact hr.lambdaExpression (hinner hplaced)
  | quote => exact (gives_any _).bind fun _ _ => gives_pure (scoped_literal _)
  | quasiquote =>
    exact (honly hplaced _).bind fun x hx => (hr.template hx).mono fun _ he => he place
  | unquote => exact (honly hplaced _).bind fun x hx => (hr.anywhere hx).mono fun _ he => he place
  | splice => exact (honly hplaced _).bind fun x hx => (hr.anywhere hx).mono fun _ he => he place
  | attempt =>
    exact (honly hplaced _).bind fun x hx => (hr.inner hx).bind fun e he =>
      gives_pure (.parts rfl (List.forall_mem_singleton.mpr he))
  | and => exact hr.logical (fun _ _ _ ha hb => .parts rfl (hpair ha hb)) (hinner hplaced)
  | or => exact hr.logical (fun _ _ _ ha hb => .parts rfl (hpair ha hb)) (hinner hplaced)
  | list =>
    refine (hr.forEach (hinner hplaced)).bind fun es hes => gives_pure (.parts rfl ?_)
    simpa [Expr.parts, plainElement] using hes

theorem Scopes.callByName (hr : Scopes rule n) {name : Bytes} (hheight : ∀ x ∈ args, x.height ≤ n)
    (hplaced : Form.argsPlaced place args (SpecialForm.ofName? name) = true) :
    (callByName rule scope loc name args).Gives (Scoped place scope) := by
  unfold Expr.callByName
  cases hform : SpecialForm.ofName? name with
  | some form =>
    rw [hform] at hplaced
    exact hr.specialForm hheight hplaced
  | none =>
    rw [hform] at hplaced
    have hargs : ∀ x ∈ args, Inner n x :=
      fun x hx => ⟨Form.placedAll_iff.mp hplaced x hx, hheight x hx⟩
    dsimp only
    split
    · exact hr.operationCall hargs
    · split
      · exact hr.fieldAccess hargs
      · refine (hr.forEach hargs).bind fun es hes => ?_
        split
        · rename_i hname
          have htarget : Scoped .inside scope (.localRef name) := .localRef (by simpa using hname)
          exact gives_pure (.parts rfl (List.forall_mem_cons.mpr ⟨htarget, hes⟩))
        · split
          · exact gives_pure (.parts rfl hes)
          · exact gives_pure (.parts rfl hes)

theorem Scopes.listExpression (hr : Scopes rule n) (hheight : ∀ x ∈ xs, x.height ≤ n)
    (hplaced : (Form.sequence loc .paren xs).placed place = true) :
    (listExpression rule scope loc xs).Gives (Scoped place scope) := by
  match xs with
  | [] => exact gives_pure (scoped_literal _)
  | head :: args =>
    rw [Form.placed_list, Bool.and_eq_true] at hplaced
    rw [List.forall_mem_cons] at hheight
    have hinner : head.head? = none → ∀ x ∈ args, Inner n x := by
      intro hhead x hx
      rw [hhead] at hplaced
      exact ⟨Form.placedAll_iff.mp hplaced.2 x hx, hheight.2 x hx⟩
    have hcall : head.head? = none → (rule scope head >>= fun target =>
        Report.forEach (rule scope) args >>= fun es => pure (.apply loc target es)).Gives
        (Scoped place scope) := by
      intro hhead
      refine (hr.inner ⟨hplaced.1, hheight.1⟩).bind fun e he => ?_
      refine (hr.forEach (hinner hhead)).bind fun es hes => ?_
      exact gives_pure (.parts rfl (List.forall_mem_cons.mpr ⟨he, hes⟩))
    cases head with
    | atom _ a =>
      cases a with
      | symbol name => exact hr.callByName hheight.2 hplaced.2
      | keyword field => exact hr.fieldAccess (hinner rfl)
      | interpolation name => exact hcall rfl
      | _ => exact gives_fail _ _
    | sequence _ b _ =>
      cases b with
      | paren => exact hcall rfl
      | _ => exact gives_fail _ _
    | marked _ m _ =>
      cases m with
      | unquote => exact hcall rfl
      | _ => exact gives_fail _ _

theorem Scopes.formExpression (hr : Scopes rule n) {x : Form} (hheight : x.height ≤ n + 1)
    (hplaced : x.placed place = true) :
    (formExpression rule scope x).Gives (Scoped place scope) := by
  match x with
  | .atom loc a =>
    cases a with
    | symbol name =>
      refine gives_pure ?_
      split
      · rename_i hname
        exact .localRef (by simpa using hname)
      · exact .parts rfl (List.forall_mem_nil _)
    | interpolation name => simp [Form.placed] at hplaced
    | _ => exact gives_pure (scoped_literal _)
  | .marked loc m y =>
    have hy : Inner n y := ⟨hplaced, by rw [Form.height] at hheight; omega⟩
    cases m with
    | quote => exact gives_pure (scoped_literal _)
    | quasiquote => exact (hr.template hy).mono fun _ he => he place
    | unquote => exact (hr.anywhere hy).mono fun _ he => he place
    | splice => exact (hr.anywhere hy).mono fun _ he => he place
  | .sequence loc b xs =>
    have hheights : ∀ y ∈ xs, y.height ≤ n := fun y hy => by
      have hlt := Form.height_lt_of_mem hy loc b
      omega
    have hinner : Form.placedAll .inside xs = true → ∀ y ∈ xs, Inner n y :=
      fun h y hy => ⟨Form.placedAll_iff.mp h y hy, hheights y hy⟩
    cases b with
    | paren => exact hr.listExpression hheights hplaced
    | square =>
      refine (hr.forEach (hinner hplaced)).bind fun es hes => gives_pure (.parts rfl ?_)
      simpa [Expr.parts, plainElement] using hes
    | brace =>
      exact (hr.forEach (hinner hplaced)).bind fun es hes => gives_pure (.parts rfl hes)

theorem formExpression_definition (rule : Rule) (scope : Scope) (loc : Location) {f : Form}
    (hf : f.symbol? = some (utf8 "def")) (args : List Form) :
    formExpression rule scope (.sequence loc .paren (f :: args)) =
      definition rule scope loc args := by
  have hform : SpecialForm.ofName? (utf8 "def") = some .define := by decide
  match f with
  | .atom _ (.symbol name) =>
    obtain rfl := Option.some.inj hf
    show callByName rule scope loc (utf8 "def") args = _
    unfold Expr.callByName
    rw [hform]
    rfl
  | .atom _ .nil | .atom _ (.boolean _) | .atom _ (.number _) | .atom _ (.string _)
  | .atom _ (.keyword _) | .atom _ (.interpolation _) | .sequence .. | .marked .. =>
    simp [Form.symbol?] at hf

theorem bound_formExpression {name : Bytes} (hx : definedName? x = some name) :
    (formExpression rule scope x).Gives fun e => e.bound = [name] := by
  unfold definedName? at hx
  split at hx
  · rename_i loc f y rest
    split at hx
    · rename_i hf
      rw [formExpression_definition rule scope loc hf]
      unfold Expr.definition
      split
      · rename_i first value hargs
        obtain ⟨rfl, rfl⟩ := List.cons.inj hargs
        have hname : expectName (utf8 "def") y = pure name := by
          unfold expectName
          rw [hx]
        rw [hname]
        exact (gives_pure (Q := (· = name)) rfl).bind fun _ h => (gives_any _).bind fun _ _ =>
          gives_pure (by rw [h]; rfl)
      · exact gives_fail _ _
    · simp at hx
  · simp at hx

end Rules

theorem height_pos (x : Form) : 0 < x.height := by
  cases x <;> simp [Form.height]

theorem scopes_ofFormWithin (n : Nat) : Scopes (ofFormWithin n) n := by
  induction n with
  | zero =>
    constructor
    · intro place scope x hheight
      have := height_pos x
      omega
    · intro scope x name hheight
      have := height_pos x
      omega
  | succ n ih =>
    constructor
    · intro place scope x hheight hplaced
      exact ih.formExpression hheight hplaced
    · intro scope x name _ hname
      exact bound_formExpression hname

theorem scopes_ofForm (n : Nat) : Scopes ofForm n where
  keeps := fun {_ _ x} _ hplaced => (scopes_ofFormWithin x.height).keeps (Nat.le_refl _) hplaced
  defines := fun {_ x _} _ hname => (scopes_ofFormWithin x.height).defines (Nat.le_refl _) hname

theorem scoped_ofProgram {forms : List Form} (h : ∀ x ∈ forms, x.placed .main = true) :
    (ofProgram forms).Gives fun es => Scoped .main [] (.sequence es) := by
  refine (scopes_ofForm (Form.heightAll forms)).body ?_ h
  exact Form.heightAll_le_iff.mp (Nat.le_refl _)

end ClauseLisp.Expr
