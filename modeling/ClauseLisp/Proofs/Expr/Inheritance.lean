import ClauseLisp.Proofs.Expr.Shape

/-! Properties that expressions inherit from forms. Some properties of an expression come down to
one of the free references in it. If a property of forms is passed on to all parts that are
compiled, whatever names are bound on the way, it is enough that it settles free references. -/

namespace ClauseLisp.Expr

open Report (gives_pure gives_fail gives_any gives_forEach gives_ofExcept)
open Form (Elementwise)

def isFreeRef : Expr → Bool
  | freeRef .. => true
  | _ => false

/-- What is compiled from a form with `H` in its scope has `Q`. An expression that is no free
reference has `Q` if all expressions inside it do. -/
structure Inherits (H : Scope → Form → Prop) (Q : Expr → Prop) : Prop where
  bind : ∀ {scope x} (name : Bytes), H scope x → H (name :: scope) x
  elements : ∀ {scope loc b xs}, H scope (.sequence loc b xs) → ∀ x ∈ xs, H scope x
  datum : ∀ {scope loc m x}, m ≠ .quote → H scope (.marked loc m x) → H scope x
  freeRef : ∀ {scope loc name}, H scope (.atom loc (.symbol name)) → name ∉ scope →
    Q (.freeRef loc name)
  node : ∀ {e : Expr}, e.isFreeRef = false → (∀ x ∈ e.children, Q x) → Q e

structure Passes (H : Scope → Form → Prop) (Q : Expr → Prop) (rule : Rule) : Prop
    extends Inherits H Q where
  gives : ∀ {scope x}, H scope x → (rule scope x).Gives Q

section Pieces

variable {H : Scope → Form → Prop} {Q : Expr → Prop} {scope : Scope} {x : Form}

theorem Inherits.elementwise (hI : Inherits H Q) (scope : Scope) : Elementwise (H scope) :=
  ⟨hI.elements⟩

theorem Inherits.binds (hI : Inherits H Q) (names : List Bytes) (hx : H scope x) :
    H (names.reverse ++ scope) x := by
  induction names generalizing scope with
  | nil => exact hx
  | cons name names ih =>
    rw [List.reverse_cons, List.append_assoc]
    exact ih (hI.bind name hx)

theorem Inherits.literal (hI : Inherits H Q) (d : Datum) : Q (.literal d) :=
  hI.node rfl (List.forall_mem_nil _)

theorem Inherits.localRef (hI : Inherits H Q) (name : Bytes) : Q (.localRef name) :=
  hI.node rfl (List.forall_mem_nil _)

theorem Inherits.pair (hI : Inherits H Q) {e a b : Expr} (he : e.isFreeRef = false)
    (hchildren : e.children = [a, b]) (ha : Q a) (hb : Q b) : Q e := by
  refine hI.node he ?_
  rw [hchildren]
  simpa using ⟨ha, hb⟩

theorem foldl_inherits {combine : Expr → Expr → Expr} {e : Expr} {es : List Expr}
    (hcombine : ∀ a b, Q a → Q b → Q (combine a b)) (he : Q e) (hes : ∀ x ∈ es, Q x) :
    Q (es.foldl combine e) := by
  induction es generalizing e with
  | nil => exact he
  | cons x es ih =>
    rw [List.forall_mem_cons] at hes
    exact ih (hcombine e x he hes.1) hes.2

def ClauseHas (Q : Expr → Prop) (clause : Clause) : Prop :=
  ∀ e ∈ clause.body :: clause.guards, Q e

end Pieces

section Rules

variable {H : Scope → Form → Prop} {Q : Expr → Prop} {rule : Rule} {scope : Scope}
  {loc : Location} {xs args : List Form}

theorem Passes.forEach (hr : Passes H Q rule) (hxs : ∀ x ∈ xs, H scope x) :
    (Report.forEach (rule scope) xs).Gives fun es => ∀ e ∈ es, Q e :=
  gives_forEach fun x hx => hr.gives (hxs x hx)

theorem Passes.clause_of_inner (hr : Passes H Q rule) {form : Bytes} {params body : Form}
    {guard : Option Form}
    (h : ∀ xs ps guards, listed? params = some xs →
      (Pattern.ofForms xs).result = .ok (ps, guards) →
      ∀ x ∈ body :: (guards ++ guard.toList), H ((Pattern.namesAll ps).reverse ++ scope) x) :
    (clause rule scope form params guard body).Gives (ClauseHas Q) := by
  unfold Expr.clause
  split
  · exact gives_fail _ _
  · rename_i xs hl
    have hpatterns : (Report.ofExcept (Pattern.ofForms xs).result).Gives fun r =>
        ∀ x ∈ body :: (r.2 ++ guard.toList), H ((Pattern.namesAll r.1).reverse ++ scope) x :=
      gives_ofExcept fun r hr => h xs r.1 r.2 hl hr
    refine hpatterns.bind fun r hall => ?_
    refine (bindNames_gives params.loc scope (Pattern.namesAll r.1)).bind ?_
    rintro _ rfl
    rw [List.forall_mem_cons] at hall
    refine (hr.forEach hall.2).bind fun gs hgs => (hr.gives hall.1).bind fun b hb => ?_
    exact gives_pure (List.forall_mem_cons.mpr ⟨hb, hgs⟩)

theorem Passes.body (hr : Passes H Q rule) (hxs : ∀ x ∈ xs, H scope x) :
    (body rule scope xs).Gives fun es => ∀ e ∈ es, Q e := by
  induction xs generalizing scope with
  | nil => exact gives_pure (List.forall_mem_nil _)
  | cons x xs ih =>
    rw [List.forall_mem_cons] at hxs
    refine (hr.gives hxs.1).bind fun e he => ?_
    have hrest : ∀ inner, (∀ y ∈ xs, H inner y) →
        (Expr.body rule inner xs >>= fun es => pure (e :: es)).Gives fun es => ∀ e ∈ es, Q e :=
      fun inner hinner => (ih hinner).bind fun es hes =>
        gives_pure (List.forall_mem_cons.mpr ⟨he, hes⟩)
    cases hname : definedName? x with
    | none => exact hrest scope hxs.2
    | some name =>
      refine (bindName_gives scope name x.loc).bind ?_
      rintro _ rfl
      exact hrest _ fun y hy => hr.bind name (hxs.2 y hy)

theorem Passes.clause (hr : Passes H Q rule) {form : Bytes} {params body : Form}
    {guard : Option Form}
    (hparams : H scope params) (hguard : ∀ g ∈ guard, H scope g) (hbody : H scope body) :
    (clause rule scope form params guard body).Gives (ClauseHas Q) := by
  refine hr.clause_of_inner fun xs ps guards hl hpatterns x hx => hr.binds _ ?_
  have hxs := (hr.elementwise scope).listed? hparams hl
  have hguards := Pattern.collects_ofForms (hr.elementwise scope) hxs ps guards hpatterns
  simp only [List.mem_cons, List.mem_append, Option.mem_toList] at hx
  rcases hx with rfl | hx | hx
  · exact hbody
  · exact hguards x hx
  · exact hguard x hx

theorem Passes.singleClause (hr : Passes H Q rule) {form name : Bytes} (hxs : ∀ x ∈ xs, H scope x) :
    (singleClause rule scope form name loc xs).Gives fun cs => ∀ c ∈ cs, ClauseHas Q c := by
  have hone : ∀ {params body : Form} {guard : Option Form}, params ∈ xs → (∀ g ∈ guard, g ∈ xs) →
      body ∈ xs → (Expr.clause rule scope form params guard body >>= fun c => pure [c]).Gives
        fun cs => ∀ c ∈ cs, ClauseHas Q c := fun hparams hguard hbody =>
    (hr.clause (hxs _ hparams) (fun g hg => hxs g (hguard g hg)) (hxs _ hbody)).bind
      fun c hc => gives_pure (List.forall_mem_singleton.mpr hc)
  unfold Expr.singleClause
  split
  · exact hone (by simp) (by simp) (by simp)
  · split
    · exact hone (by simp) (by simp) (by simp)
    · exact gives_fail _ _
  · exact gives_fail _ _

theorem Passes.functionClauses (hr : Passes H Q rule) {form name : Bytes}
    (hxs : ∀ x ∈ xs, H scope x) :
    (functionClauses rule scope form name loc xs).Gives fun cs => ∀ c ∈ cs, ClauseHas Q c := by
  unfold Expr.functionClauses
  split
  · exact hr.singleClause hxs
  · rename_i parts hparts
    have hclauses : (Report.forEach (clauseOfParts rule scope form) parts).Gives
        fun cs => ∀ c ∈ cs, ClauseHas Q c := by
      refine gives_forEach fun p hp => ?_
      obtain ⟨x, hx, hpx⟩ := mem_of_mapM_eq_some hparts p hp
      obtain ⟨params, guard, body⟩ := p
      obtain ⟨hparams, hguard, hbody⟩ := (hr.elementwise scope).clauseParts? (hxs x hx) hpx
      exact hr.clause hparams hguard hbody
    extract_lets reading
    clear_value reading
    cases reading with
    | ambiguous => exact gives_fail _ _
    | single => exact hr.singleClause hxs
    | clauses => exact hclauses

theorem Passes.functionDefinition (hr : Passes H Q rule) {exported : Bool}
    (hargs : ∀ x ∈ args, H scope x) :
    (functionDefinition rule scope exported loc args).Gives Q := by
  match args with
  | [] => exact gives_fail _ _
  | [_] => exact gives_fail _ _
  | first :: x :: rest =>
    rw [List.forall_mem_cons] at hargs
    refine (gives_any _).bind fun name _ => (hr.functionClauses hargs.2).bind fun cs hcs =>
      gives_pure (hr.node rfl fun e he => ?_)
    obtain ⟨c, hc, hec⟩ := List.mem_flatMap.mp he
    exact hcs c hc e hec

theorem Passes.lambdaExpression (hr : Passes H Q rule) (hargs : ∀ x ∈ args, H scope x) :
    (lambdaExpression rule scope loc args).Gives Q := by
  unfold Expr.lambdaExpression
  split
  · exact (hr.clause (hargs _ (by simp)) (by simp) (hargs _ (by simp))).bind fun c hc =>
      gives_pure (hr.node rfl hc)
  · split
    · refine (hr.clause (hargs _ (by simp)) ?_ (hargs _ (by simp))).bind fun c hc =>
        gives_pure (hr.node rfl hc)
      rintro _ ⟨⟩
      exact hargs _ (by simp)
    · exact gives_fail _ _
  · exact gives_fail _ _

theorem Passes.definition (hr : Passes H Q rule) (hargs : ∀ x ∈ args, H scope x) :
    (definition rule scope loc args).Gives Q := by
  unfold Expr.definition
  split
  · refine (gives_any _).bind fun name _ => (hr.gives (hargs _ (by simp))).bind fun e he => ?_
    exact gives_pure (hr.node rfl (List.forall_mem_singleton.mpr he))
  · exact gives_fail _ _

theorem Passes.moduleDefinition (hr : Passes H Q rule) (hargs : ∀ x ∈ args, H scope x) :
    (moduleDefinition rule scope loc args).Gives Q := by
  unfold Expr.moduleDefinition
  split
  · exact gives_fail _ _
  · rw [List.forall_mem_cons] at hargs
    exact (gives_any _).bind fun name _ => (hr.body hargs.2).bind fun es hes =>
      gives_pure (hr.node rfl hes)

theorem Passes.letBindings (hr : Passes H Q rule) {pairs : List (Form × Form)}
    (hpairs : ∀ p ∈ pairs, H scope p.1 ∧ H scope p.2) :
    (letBindings rule scope pairs).Gives fun r =>
      (∀ b ∈ r.1, Q b.value) ∧ ∃ names : List Bytes, r.2 = names.reverse ++ scope := by
  induction pairs generalizing scope with
  | nil => exact gives_pure ⟨List.forall_mem_nil _, [], rfl⟩
  | cons p pairs ih =>
    rw [List.forall_mem_cons] at hpairs
    refine (gives_any _).bind fun name _ => (hr.gives hpairs.1.2).bind fun e he => ?_
    refine (bindName_gives scope name _).bind ?_
    rintro _ rfl
    have hrest : ∀ p ∈ pairs, H (name :: scope) p.1 ∧ H (name :: scope) p.2 :=
      fun p hp => ⟨hr.bind name (hpairs.2 p hp).1, hr.bind name (hpairs.2 p hp).2⟩
    refine (ih hrest).bind fun r hbindings => gives_pure ?_
    obtain ⟨names, hnames⟩ := hbindings.2
    refine ⟨List.forall_mem_cons.mpr ⟨he, hbindings.1⟩, name :: names, ?_⟩
    rw [hnames, List.reverse_cons, List.append_assoc, List.singleton_append]

theorem Passes.letExpression (hr : Passes H Q rule) (hargs : ∀ x ∈ args, H scope x) :
    (letExpression rule scope loc args).Gives Q := by
  unfold Expr.letExpression
  split
  · refine (letPairs_gives (hr.elementwise scope) (hargs _ (by simp))).bind fun pairs hpairs => ?_
    refine (hr.letBindings hpairs).bind ?_
    rintro ⟨bs, _⟩ ⟨hbs, names, rfl⟩
    refine (hr.gives (hr.binds names (hargs _ (by simp)))).bind fun e he => ?_
    refine gives_pure (hr.node rfl ?_)
    rw [children, List.forall_mem_cons, List.forall_mem_map]
    exact ⟨he, hbs⟩
  · exact gives_fail _ _

theorem Passes.ifExpression (hr : Passes H Q rule) (hargs : ∀ x ∈ args, H scope x) :
    (ifExpression rule scope loc args).Gives Q := by
  unfold Expr.ifExpression
  split
  · refine (hr.gives (hargs _ (by simp))).bind fun t ht =>
      (hr.gives (hargs _ (by simp))).bind fun y hy =>
      gives_pure (hr.node rfl ?_)
    simpa [children, Expr.parts] using ⟨ht, hy, hr.literal .nil⟩
  · refine (hr.gives (hargs _ (by simp))).bind fun t ht =>
      (hr.gives (hargs _ (by simp))).bind fun y hy =>
      (hr.gives (hargs _ (by simp))).bind fun z hz => gives_pure (hr.node rfl ?_)
    simpa [children, Expr.parts] using ⟨ht, hy, hz⟩
  · exact gives_fail _ _

theorem Passes.condExpression (hr : Passes H Q rule) (hargs : ∀ x ∈ args, H scope x) :
    (condExpression rule scope loc args).Gives Q := by
  have hbranches : (Report.forEach (branch rule scope) args).Gives
      fun bs => ∀ b ∈ bs, Q b.test ∧ Q b.result := by
    refine gives_forEach fun x hx => ?_
    refine ((hr.elementwise scope).clausePair (hargs x hx) _).bind fun p hp => ?_
    exact (hr.gives hp.1).bind fun t ht => (hr.gives hp.2).bind fun e he => gives_pure ⟨ht, he⟩
  refine hbranches.bind fun bs hbs => ?_
  have hcond : Q (.cond loc bs) := by
    refine hr.node rfl fun e he => ?_
    obtain ⟨b, hb, heb⟩ := List.mem_flatMap.mp he
    rcases List.mem_cons.mp heb with rfl | heb
    · exact (hbs b hb).1
    · exact List.mem_singleton.mp heb ▸ (hbs b hb).2
  split
  · exact (gives_any _).bind fun _ _ => gives_pure hcond
  · exact gives_pure hcond

theorem Passes.caseExpression (hr : Passes H Q rule) (hargs : ∀ x ∈ args, H scope x) :
    (caseExpression rule scope loc args).Gives Q := by
  unfold Expr.caseExpression
  split
  · exact gives_fail _ _
  · rename_i scrutinee clauses
    rw [List.forall_mem_cons] at hargs
    have hchoices : (Report.forEach (choice rule scope) clauses).Gives
        fun cs => ∀ c ∈ cs, Q c.body := by
      refine gives_forEach fun x hx => ?_
      refine ((hr.elementwise scope).clausePair (hargs.2 x hx) _).bind fun p hp => ?_
      exact (hr.gives hp.2).bind fun e he => gives_pure he
    refine hchoices.bind fun cs hcs => (hr.gives hargs.1).bind fun e he => gives_pure ?_
    refine hr.node rfl (List.forall_mem_cons.mpr ⟨he, ?_⟩)
    simpa using hcs

theorem Passes.logical (hr : Passes H Q rule) {form : Bytes} {combine : Expr → Expr → Expr}
    (hcombine : ∀ a b, Q a → Q b → Q (combine a b)) (hargs : ∀ x ∈ args, H scope x) :
    (logical rule scope form combine loc args).Gives Q := by
  unfold Expr.logical
  split
  · rw [List.forall_mem_cons] at hargs
    exact (hr.gives hargs.1).bind fun e he => (hr.forEach hargs.2).bind fun es hes =>
      gives_pure (foldl_inherits hcombine he hes)
  · exact gives_fail _ _

mutual

theorem Passes.template (hr : Passes H Q rule) {x : Form} (hx : H scope x) :
    (template rule scope x).Gives Q := by
  match x with
  | .atom loc a =>
    cases a with
    | interpolation name => exact gives_pure (hr.localRef name)
    | _ => exact gives_pure (hr.literal _)
  | .marked loc m y =>
    cases m with
    | unquote => exact hr.gives (hr.datum (by decide) hx)
    | splice => exact gives_fail _ _
    | _ => exact gives_pure (hr.literal _)
  | .sequence loc b xs =>
    have hxs := hr.elements hx
    rw [Expr.template.eq_def]
    dsimp only
    split
    · exact gives_pure (hr.literal _)
    · split
      · exact (hr.templateTuple hxs).bind fun es hes => gives_pure (hr.node rfl hes)
      · refine (hr.templateList hxs).bind fun es hes => gives_pure (hr.node rfl ?_)
        simpa [children, Expr.parts] using hes

theorem Passes.templateTuple (hr : Passes H Q rule) {xs : List Form} (hxs : ∀ x ∈ xs, H scope x) :
    (templateTuple rule scope xs).Gives fun es => ∀ e ∈ es, Q e := by
  match xs with
  | [] => exact gives_pure (List.forall_mem_nil _)
  | x :: xs =>
    rw [List.forall_mem_cons] at hxs
    have hrest : (Expr.template rule scope x >>= fun e =>
        Expr.templateTuple rule scope xs >>= fun es => pure (e :: es)).Gives
        fun es => ∀ e ∈ es, Q e :=
      (hr.template hxs.1).bind fun e he =>
        (hr.templateTuple hxs.2).bind fun es hes =>
          gives_pure (List.forall_mem_cons.mpr ⟨he, hes⟩)
    rw [Expr.templateTuple]
    split
    · exact (gives_fail _ _ (Q := fun _ => True)).bind fun _ _ => hrest
    · exact hrest

theorem Passes.templateList (hr : Passes H Q rule) {xs : List Form} (hxs : ∀ x ∈ xs, H scope x) :
    (templateList rule scope xs).Gives fun es => ∀ e ∈ es, Q e.value := by
  match xs with
  | [] => exact gives_pure (List.forall_mem_nil _)
  | x :: xs =>
    rw [List.forall_mem_cons] at hxs
    have hrest : ∀ spliced e, Q e → (Expr.templateList rule scope xs >>= fun es =>
        pure (⟨spliced, e⟩ :: es)).Gives fun es => ∀ e ∈ es, Q e.value :=
      fun spliced e he => (hr.templateList hxs.2).bind fun es hes =>
        gives_pure (List.forall_mem_cons.mpr ⟨he, hes⟩)
    rw [Expr.templateList]
    cases x with
    | marked loc m y =>
      cases m with
      | splice => exact (hr.gives (hr.datum (by decide) hxs.1)).bind (hrest _)
      | _ => exact (hr.template hxs.1).bind (hrest _)
    | _ => exact (hr.template hxs.1).bind (hrest _)

end

theorem Passes.operationCall (hr : Passes H Q rule) {op : Operation.Entry}
    (hargs : ∀ x ∈ args, H scope x) :
    (operationCall rule scope loc args op).Gives Q := by
  have hall : (Report.forEach (rule scope) args >>= fun es =>
      pure (.operation loc op.operation es)).Gives Q :=
    (hr.forEach hargs).bind fun es hes => gives_pure (hr.node rfl hes)
  unfold Expr.operationCall
  split
  · exact (gives_any _).bind fun _ _ => hall
  · exact (gives_any _).bind fun _ _ => hall
  · exact hall
  · split
    · rw [List.forall_mem_cons] at hargs
      refine (hr.gives hargs.1).bind fun e he => (hr.forEach hargs.2).bind fun es hes =>
        gives_pure (foldl_inherits ?_ he hes)
      exact fun a b ha hb => hr.pair rfl rfl ha hb
    · split
      · exact (hr.gives (hargs _ (by simp))).bind fun e he =>
          gives_pure (hr.node rfl (List.forall_mem_singleton.mpr he))
      · exact gives_fail _ _
    · exact gives_fail _ _

theorem Passes.fieldAccess (hr : Passes H Q rule) {field : Bytes} (hargs : ∀ x ∈ args, H scope x) :
    (fieldAccess rule scope loc field args).Gives Q := by
  unfold Expr.fieldAccess
  split
  · exact (hr.gives (hargs _ (by simp))).bind fun e he =>
      gives_pure (hr.pair rfl rfl he (hr.literal _))
  · exact gives_fail _ _

theorem Passes.specialForm (hr : Passes H Q rule) {form : SpecialForm}
    (hargs : ∀ x ∈ args, H scope x) :
    (specialForm rule scope loc args form).Gives Q := by
  have honly : ∀ form, (onlyArgument form loc args).Gives (H scope) :=
    fun form => onlyArgument_gives hargs form loc
  cases form with
  | defineFunction => exact hr.functionDefinition hargs
  | definePrivate => exact hr.functionDefinition hargs
  | define => exact hr.definition hargs
  | defineModule => exact hr.moduleDefinition hargs
  | letIn => exact hr.letExpression hargs
  | ifThen => exact hr.ifExpression hargs
  | cond => exact hr.condExpression hargs
  | caseOf => exact hr.caseExpression hargs
  | lambda => exact hr.lambdaExpression hargs
  | sequence => exact (hr.body hargs).bind fun es hes => gives_pure (hr.node rfl hes)
  | quote => exact (gives_any _).bind fun _ _ => gives_pure (hr.literal _)
  | quasiquote => exact (honly _).bind fun x hx => hr.template hx
  | unquote => exact (honly _).bind fun x hx => hr.gives hx
  | splice => exact (honly _).bind fun x hx => hr.gives hx
  | attempt =>
    exact (honly _).bind fun x hx => (hr.gives hx).bind fun e he =>
      gives_pure (hr.node rfl (List.forall_mem_singleton.mpr he))
  | and => exact hr.logical (fun a b ha hb => hr.pair rfl rfl ha hb) hargs
  | or => exact hr.logical (fun a b ha hb => hr.pair rfl rfl ha hb) hargs
  | list =>
    refine (hr.forEach hargs).bind fun es hes => gives_pure (hr.node rfl ?_)
    simpa [children, Expr.parts, plainElement] using hes

theorem Passes.callByName (hr : Passes H Q rule) {name : Bytes} (hargs : ∀ x ∈ args, H scope x) :
    (callByName rule scope loc name args).Gives Q := by
  unfold Expr.callByName
  split
  · exact hr.specialForm hargs
  · split
    · exact hr.operationCall hargs
    · split
      · exact hr.fieldAccess hargs
      · refine (hr.forEach hargs).bind fun es hes => ?_
        split
        · exact gives_pure
            (hr.node rfl (List.forall_mem_cons.mpr ⟨hr.localRef name, hes⟩))
        · split <;> exact gives_pure (hr.node rfl hes)

theorem Passes.listExpression (hr : Passes H Q rule) (hxs : ∀ x ∈ xs, H scope x) :
    (listExpression rule scope loc xs).Gives Q := by
  match xs with
  | [] => exact gives_pure (hr.literal _)
  | head :: args =>
    rw [List.forall_mem_cons] at hxs
    have hcall : (rule scope head >>= fun target =>
        Report.forEach (rule scope) args >>= fun es => pure (.apply loc target es)).Gives Q :=
      (hr.gives hxs.1).bind fun e he => (hr.forEach hxs.2).bind fun es hes =>
        gives_pure (hr.node rfl (List.forall_mem_cons.mpr ⟨he, hes⟩))
    cases head with
    | atom loc' a =>
      cases a with
      | symbol name => exact hr.callByName hxs.2
      | keyword field => exact hr.fieldAccess hxs.2
      | interpolation name => exact hcall
      | _ => exact gives_fail _ _
    | sequence _ b _ =>
      cases b with
      | paren => exact hcall
      | _ => exact gives_fail _ _
    | marked _ m _ =>
      cases m with
      | unquote => exact hcall
      | _ => exact gives_fail _ _

theorem Passes.formExpression (hr : Passes H Q rule) {x : Form} (hx : H scope x) :
    (formExpression rule scope x).Gives Q := by
  match x with
  | .atom loc a =>
    cases a with
    | symbol name =>
      refine gives_pure ?_
      split
      · exact hr.localRef name
      · rename_i hname
        exact hr.freeRef hx (by simpa using hname)
    | interpolation name => exact gives_pure (hr.localRef name)
    | _ => exact gives_pure (hr.literal _)
  | .marked loc m y =>
    cases m with
    | quote => exact gives_pure (hr.literal _)
    | quasiquote => exact hr.template (hr.datum (by decide) hx)
    | unquote => exact hr.gives (hr.datum (by decide) hx)
    | splice => exact hr.gives (hr.datum (by decide) hx)
  | .sequence loc b xs =>
    have hxs := hr.elements hx
    cases b with
    | paren => exact hr.listExpression hxs
    | square =>
      refine (hr.forEach hxs).bind fun es hes => gives_pure (hr.node rfl ?_)
      simpa [children, Expr.parts, plainElement] using hes
    | brace => exact (hr.forEach hxs).bind fun es hes => gives_pure (hr.node rfl hes)

end Rules

theorem Inherits.ofFormWithin {H : Scope → Form → Prop} {Q : Expr → Prop} (hI : Inherits H Q)
    (n : Nat) {scope : Scope} {x : Form} (hx : H scope x) : (ofFormWithin n scope x).Gives Q := by
  induction n generalizing scope x with
  | zero => exact gives_pure (hI.literal _)
  | succ n ih => exact Passes.formExpression ⟨hI, ih⟩ hx

theorem Inherits.ofForm {H : Scope → Form → Prop} {Q : Expr → Prop} (hI : Inherits H Q)
    {scope : Scope} {x : Form} (hx : H scope x) : (ofForm scope x).Gives Q :=
  hI.ofFormWithin x.height hx

end ClauseLisp.Expr
