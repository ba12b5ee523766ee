import ClauseLisp.Proofs.Expr.Relocation
import ClauseLisp.Proofs.Expr.Scoped
import Mathlib.Data.List.Forall2

/-! Compiling the same forms twice, at other locations and with more names known around them. A
relation on expressions that the constructors keep relates what the two rules for a form give, if it
relates what the rules for its parts give. With no more names known, one rule gives a result
whenever the other one does. -/

namespace ClauseLisp

namespace Report

variable {α β α' β' : Type} {strict : Prop}

/-- The results are related, if there are two; strictly, there are two or none. -/
def Agree (strict : Prop) (R : α → α' → Prop) (r : Report α) (r' : Report α') : Prop :=
  (strict → r.result.isOk = r'.result.isOk) ∧
    ∀ a a', r.result = .ok a → r'.result = .ok a' → R a a'

variable {R : α → α' → Prop} {S : β → β' → Prop} {r : Report α} {r' : Report α'}

theorem agree_pure {a : α} {a' : α'} (h : R a a') : Agree strict R (pure a) (pure a') := by
  refine ⟨fun _ => rfl, fun b b' hb hb' => ?_⟩
  obtain rfl := Except.ok.inj hb
  obtain rfl := Except.ok.inj hb'
  exact h

theorem agree_fail (error error' : CompileError) (loc loc' : Location) :
    Agree strict R (fail error loc) (fail error' loc') :=
  ⟨fun _ => rfl, fun _ _ h => by simp [fail] at h⟩

theorem agree_warn (w w' : Warning) : Agree strict (fun _ _ => True) (warn w) (warn w') :=
  ⟨fun _ => rfl, fun _ _ _ _ => trivial⟩

theorem bind_of_ok {f : α → Report β} {a : α} (h : r.result = .ok a) :
    (r >>= f).result = (f a).result := by
  simp only [Bind.bind, h]

theorem bind_of_error {f : α → Report β} {e : CompileFault} (h : r.result = .error e) :
    (r >>= f).result = .error e := by
  simp only [Bind.bind, h]

theorem result_eq_ok_iff {a : α} : r.result = .ok a ↔ r.result.toOption = some a := by
  cases r.result <;> simp [Except.toOption]

theorem isOk_eq_false_iff : r.result.isOk = false ↔ r.result.toOption = none := by
  cases r.result <;> simp [Except.toOption, Except.isOk, Except.toBool]

@[simp] theorem toOption_pure (a : α) : (pure a : Report α).result.toOption = some a := rfl

theorem toOption_bind (r : Report α) (f : α → Report β) :
    (r >>= f).result.toOption = r.result.toOption.bind fun a => (f a).result.toOption := by
  cases h : r.result with
  | error e => rw [bind_of_error h]; rfl
  | ok a => rw [bind_of_ok h]; rfl

theorem result_forEach {f : α → Report β} {as : List α} {bs : List β}
    (h : List.Forall₂ (fun a b => (f a).result = .ok b) as bs) :
    (forEach f as).result = .ok bs := by
  induction h with
  | nil => rfl
  | cons hfirst _ ih =>
    rw [forEach, bind_of_ok hfirst, bind_of_ok ih]
    rfl

theorem Agree.bind {f : α → Report β} {f' : α' → Report β'} (hr : Agree strict R r r')
    (hf : ∀ a a', R a a' → Agree strict S (f a) (f' a')) :
    Agree strict S (r >>= f) (r' >>= f') := by
  obtain ⟨hok, hrel⟩ := hr
  cases h : r.result with
  | error e =>
    rw [h] at hok
    refine ⟨fun hs => ?_, fun b _ hb => ?_⟩
    · cases h' : r'.result with
      | error e' => rw [bind_of_error h, bind_of_error h']; rfl
      | ok a' => simpa [h', Except.isOk, Except.toBool] using hok hs
    · simp [bind_of_error h] at hb
  | ok a =>
    rw [h] at hok
    cases h' : r'.result with
    | error e' =>
      refine ⟨fun hs => ?_, fun _ b' _ hb' => ?_⟩
      · simpa [h', Except.isOk, Except.toBool] using hok hs
      · simp [bind_of_error h'] at hb'
    | ok a' =>
      unfold Agree
      rw [bind_of_ok h, bind_of_ok h']
      exact hf a a' (hrel a a' h h')

theorem Agree.map_toOption {γ : Type} {f : α → γ} {f' : α' → γ} (h : Agree strict R r r')
    (hstrict : strict) (hf : ∀ a a', R a a' → f' a' = f a) :
    r'.result.toOption.map f' = r.result.toOption.map f := by
  obtain ⟨hok, hrel⟩ := h
  replace hok := hok hstrict
  match hr : r.result, hr' : r'.result with
  | .error _, .error _ => rfl
  | .ok a, .ok a' => exact congrArg some (hf a a' (hrel a a' hr hr'))
  | .error _, .ok _ | .ok _, .error _ => simp [hr, hr', Except.isOk, Except.toBool] at hok

theorem Agree.toOption_eq {r r' : Report α} (h : Agree strict Eq r r') (hstrict : strict) :
    r'.result.toOption = r.result.toOption := by
  have hmap := h.map_toOption hstrict fun a a' (heq : a = a') => heq.symm
  rwa [Option.map_id', Option.map_id'] at hmap

theorem agree_forEach {f : α → Report β} {f' : α' → Report β'} {g : α → α'} {as : List α}
    (hf : ∀ a ∈ as, Agree strict S (f a) (f' (g a))) :
    Agree strict (List.Forall₂ S) (forEach f as) (forEach f' (as.map g)) := by
  induction as with
  | nil => exact agree_pure .nil
  | cons a as ih =>
    rw [List.forall_mem_cons] at hf
    exact hf.1.bind fun b b' hb => (ih hf.2).bind fun bs bs' hbs => agree_pure (.cons hb hbs)

end Report

section Pieces

variable (m : Location → Location) (R : Expr → Expr → Prop)

def Branch.Related (b b' : Branch) : Prop := R b.test b'.test ∧ R b.result b'.result

def Choice.Related (c c' : Choice) : Prop := c'.datum = c.datum ∧ R c.body c'.body

def Binding.Related (b b' : Binding) : Prop := b'.name = b.name ∧ R b.value b'.value

def Element.Related (e e' : Element) : Prop := e'.spliced = e.spliced ∧ R e.value e'.value

structure Clause.Related (c c' : Clause) : Prop where
  loc : c'.loc = m c.loc
  parameters : c'.parameters = c.parameters
  guards : List.Forall₂ R c.guards c'.guards
  body : R c.body c'.body

end Pieces

namespace Expr

open Report (Agree agree_pure agree_fail agree_warn agree_forEach)

/-- The relation is kept by the constructors, with the locations on the right given by those on the
left. It relates a free name or a call by name to the local one where the name is known. -/
structure Congruence (m : Location → Location) (known : Scope) (R : Expr → Expr → Prop) :
    Prop where
  literal : ∀ d, R (.literal d) (.literal d)
  localRef : ∀ name, R (.localRef name) (.localRef name)
  freeRef : ∀ loc name, R (.freeRef loc name) (.freeRef (m loc) name)
  call : ∀ loc name {es es'}, List.Forall₂ R es es' → R (.call loc name es) (.call (m loc) name es')
  memberCall : ∀ loc home member {es es'}, List.Forall₂ R es es' →
    R (.memberCall loc home member es) (.memberCall (m loc) home member es')
  apply : ∀ loc {e e' es es'}, R e e' → List.Forall₂ R es es' →
    R (.apply loc e es) (.apply (m loc) e' es')
  operation : ∀ loc op {es es'}, List.Forall₂ R es es' →
    R (.operation loc op es) (.operation (m loc) op es')
  and : ∀ {e e' f f'}, R e e' → R f f' → R (.and e f) (.and e' f')
  or : ∀ {e e' f f'}, R e e' → R f f' → R (.or e f) (.or e' f')
  ifThenElse : ∀ {e e' f f' g g'}, R e e' → R f f' → R g g' →
    R (.ifThenElse e f g) (.ifThenElse e' f' g')
  cond : ∀ loc {bs bs'}, List.Forall₂ (Branch.Related R) bs bs' →
    R (.cond loc bs) (.cond (m loc) bs')
  caseOf : ∀ loc {e e' cs cs'}, R e e' → List.Forall₂ (Choice.Related R) cs cs' →
    R (.caseOf loc e cs) (.caseOf (m loc) e' cs')
  letIn : ∀ {bs bs' e e'}, List.Forall₂ (Binding.Related R) bs bs' → R e e' →
    R (.letIn bs e) (.letIn bs' e')
  lambda : ∀ {c c'}, Clause.Related m R c c' → R (.lambda c) (.lambda c')
  defineFunction : ∀ name exported {cs cs'}, List.Forall₂ (Clause.Related m R) cs cs' →
    R (.defineFunction name exported cs) (.defineFunction name exported cs')
  define : ∀ name {e e'}, R e e' → R (.define name e) (.define name e')
  sequence : ∀ {es es'}, List.Forall₂ R es es' → R (.sequence es) (.sequence es')
  attempt : ∀ {e e'}, R e e' → R (.attempt e) (.attempt e')
  makeList : ∀ {es es'}, List.Forall₂ (Element.Related R) es es' → R (.makeList es) (.makeList es')
  makeTuple : ∀ {es es'}, List.Forall₂ R es es' → R (.makeTuple es) (.makeTuple es')
  defineModule : ∀ name {es es'}, List.Forall₂ R es es' →
    R (.defineModule name es) (.defineModule name es')
  knownRef : ∀ loc {name}, name ∈ known → R (.freeRef loc name) (.localRef name)
  knownCall : ∀ loc {name es es'}, name ∈ known → List.Forall₂ R es es' →
    R (.call loc name es) (.apply (m loc) (.localRef name) es')
  knownMember : ∀ loc {name home member es es'}, name ∈ known →
    qualified? name = some (home, member) → List.Forall₂ R es es' →
    R (.memberCall loc home member es) (.apply (m loc) (.localRef name) es')

def Agrees (m : Location → Location) (known : Scope) (R : Expr → Expr → Prop) (n : Nat)
    (rule rule' : Rule) : Prop :=
  ∀ scope x, x.height ≤ n →
    Agree (known = []) R (rule scope x) (rule' (scope ++ known) (x.relocate m))

theorem hereditary_height (n : Nat) : Form.Hereditary fun x => x.height ≤ n where
  elements := fun {loc b xs} h x hx => by
    have hlt := Form.height_lt_of_mem hx loc b
    omega
  datum := fun {loc k x} h => by
    rw [Form.height] at h
    omega

section Rules

variable {m : Location → Location} {known : Scope} {R : Expr → Expr → Prop} {n : Nat}
  {rule rule' : Rule} {scope : Scope} {loc : Location} {x : Form} {xs args : List Form}

theorem Agrees.forEach (hr : Agrees m known R n rule rule') (hxs : ∀ x ∈ xs, x.height ≤ n) :
    Agree (known = []) (List.Forall₂ R) (Report.forEach (rule scope) xs)
      (Report.forEach (rule' (scope ++ known)) (Form.relocateAll m xs)) := by
  rw [Form.relocateAll_eq_map]
  exact agree_forEach fun x hx => hr scope x (hxs x hx)

theorem bindName_agree (scope : Scope) (name : Bytes) (loc loc' : Location) :
    Agree (known = []) (fun t t' => t' = t ++ known) (bindName scope name loc)
      (bindName (scope ++ known) name loc') := by
  unfold bindName
  split
  · exact (agree_warn _ _).bind fun _ _ _ => agree_pure rfl
  · exact agree_pure rfl

theorem bindNames_agree (scope : Scope) (names : List Bytes) (loc loc' : Location) :
    Agree (known = []) (fun t t' => t' = t ++ known) (bindNames loc scope names)
      (bindNames loc' (scope ++ known) names) := by
  induction names generalizing scope with
  | nil => exact agree_pure rfl
  | cons name names ih =>
    refine (bindName_agree scope name loc loc').bind ?_
    rintro inner _ rfl
    exact ih inner

theorem expectName_agree (form : Bytes) (x : Form) :
    Agree (known = []) Eq (expectName form x) (expectName form (x.relocate m)) := by
  unfold expectName
  rw [Form.symbol?_relocate]
  split
  · exact agree_pure rfl
  · exact agree_fail _ _ _ _

theorem checkCount_agree (form : Bytes) (least most : Nat) (loc loc' : Location)
    (args : List Form) : Agree (known = []) (fun _ _ => True) (checkCount form least most loc args)
      (checkCount form least most loc' (Form.relocateAll m args)) := by
  unfold checkCount
  rw [Form.relocateAll_eq_map, List.length_map]
  split
  · exact agree_fail _ _ _ _
  · exact agree_pure trivial

theorem Agrees.body (hr : Agrees m known R n rule rule') (hxs : ∀ x ∈ xs, x.height ≤ n) :
    Agree (known = []) (List.Forall₂ R) (body rule scope xs)
      (body rule' (scope ++ known) (Form.relocateAll m xs)) := by
  induction xs generalizing scope with
  | nil => exact agree_pure .nil
  | cons x xs ih =>
    rw [List.forall_mem_cons] at hxs
    rw [Form.relocateAll, Expr.body, Expr.body, definedName?_relocate]
    refine (hr scope x hxs.1).bind fun e e' he => ?_
    have hrest : ∀ inner, Agree (known = []) (List.Forall₂ R)
        (Expr.body rule inner xs >>= fun es => pure (e :: es))
        (Expr.body rule' (inner ++ known) (Form.relocateAll m xs) >>= fun es => pure (e' :: es)) :=
      fun inner => (ih hxs.2).bind fun es es' hes => agree_pure (.cons he hes)
    cases hname : definedName? x with
    | none => exact hrest scope
    | some name =>
      refine (bindName_agree scope name _ _).bind ?_
      rintro inner _ rfl
      exact hrest inner

theorem Agrees.clause (hr : Agrees m known R n rule rule') {form : Bytes} {params body : Form}
    {guard : Option Form} (hparams : params.height ≤ n) (hguard : ∀ g ∈ guard, g.height ≤ n)
    (hbody : body.height ≤ n) :
    Agree (known = []) (Clause.Related m R) (clause rule scope form params guard body)
      (clause rule' (scope ++ known) form (params.relocate m) (guard.map (Form.relocate m))
        (body.relocate m)) := by
  unfold Expr.clause
  rw [listed?_relocate, Form.loc_relocate, Form.text_relocate]
  cases hl : listed? params with
  | none => exact agree_fail _ _ _ _
  | some xs =>
    have hxs := (hereditary_height n).listed? hparams hl
    have hpatterns : Agree (known = [])
        (fun r r' => r' = (r.1, Form.relocateAll m r.2) ∧ ∀ g ∈ r.2, g.height ≤ n)
        (Report.ofExcept (Pattern.ofForms xs).result)
        (Report.ofExcept (Pattern.ofForms (Form.relocateAll m xs)).result) := by
      rw [Pattern.ofForms_relocateAll]
      unfold Pattern.Guarded.relocate
      cases hresult : (Pattern.ofForms xs).result with
      | error e => exact ⟨fun _ => rfl, fun _ _ h => by simp [Report.ofExcept] at h⟩
      | ok r =>
        have hguards :=
          Pattern.collects_ofForms (hereditary_height n).toElementwise hxs r.1 r.2 hresult
        refine agree_pure (a := r) ⟨?_, hguards⟩
        rw [Form.relocateAll_eq_map]
    refine hpatterns.bind ?_
    rintro ⟨ps, guards⟩ _ ⟨rfl, hguards⟩
    refine (bindNames_agree scope (Pattern.namesAll ps) params.loc (m params.loc)).bind ?_
    rintro inner _ rfl
    have hall : ∀ g ∈ guards ++ guard.toList, g.height ≤ n := by
      rw [List.forall_mem_append]
      exact ⟨hguards, by simpa using hguard⟩
    have hmoved : Form.relocateAll m guards ++ (guard.map (Form.relocate m)).toList =
        Form.relocateAll m (guards ++ guard.toList) := by
      simp [Form.relocateAll_eq_map, Option.toList_map]
    rw [hmoved]
    refine (hr.forEach hall).bind fun gs gs' hgs => (hr inner body hbody).bind fun b b' hb => ?_
    exact agree_pure ⟨rfl, rfl, hgs, hb⟩

theorem guard_none (n : Nat) : ∀ g ∈ (none : Option Form), g.height ≤ n := by simp

theorem Agrees.singleClause (hr : Agrees m known R n rule rule') {form name : Bytes}
    (hxs : ∀ x ∈ xs, x.height ≤ n) :
    Agree (known = []) (List.Forall₂ (Clause.Related m R))
      (singleClause rule scope form name loc xs)
      (singleClause rule' (scope ++ known) form name (m loc) (Form.relocateAll m xs)) := by
  match xs with
  | [] | [_] | [_, _, _] | _ :: _ :: _ :: _ :: _ :: _ => exact agree_fail _ _ _ _
  | [params, body] =>
    exact (hr.clause (hxs _ (by simp)) (guard_none n) (hxs _ (by simp))).bind
      fun c c' hc => agree_pure (.cons hc .nil)
  | [params, word, guard, body] =>
    have hguard : ∀ g ∈ some guard, g.height ≤ n := by
      rintro _ ⟨⟩
      exact hxs _ (by simp)
    simp only [Expr.singleClause, Form.relocateAll, isWhen_relocate]
    split
    · exact (hr.clause (hxs _ (by simp)) hguard (hxs _ (by simp))).bind
        fun c c' hc => agree_pure (.cons hc .nil)
    · exact agree_fail _ _ _ _

theorem readingOf?_append {bound : List Bytes} (h : readingOf? scope bound x ≠ some .ambiguous) :
    readingOf? (scope ++ known) bound x = readingOf? scope bound x := by
  unfold readingOf? at h ⊢
  match helements : x.elements? with
  | none => simp only
  | some [] => simp only
  | some (params :: rest) =>
    rw [helements] at h
    dsimp only at h ⊢
    cases hown : namesBound? params with
    | none => simp only
    | some own =>
      rw [hown] at h
      dsimp only at h ⊢
      split at h
      · exact absurd rfl h
      · rename_i hfree
        -- With more names in scope fewer are captured.
        have hstill : ¬ (mentionedAll rest).any (fun name => !(scope ++ known).contains name &&
            !own.contains name && bound.contains name) = true := by
          rw [List.any_eq_true] at hfree ⊢
          rintro ⟨name, hname, hcaptured⟩
          refine hfree ⟨name, hname, ?_⟩
          simp only [Bool.and_eq_true, Bool.not_eq_true', List.contains_append,
            Bool.or_eq_false_iff] at hcaptured ⊢
          exact ⟨⟨hcaptured.1.1.1, hcaptured.1.2⟩, hcaptured.2⟩
        rw [if_neg hfree, if_neg hstill]

theorem readTwo_append {x y : Form} (h : readTwo scope x y ≠ .ambiguous) :
    readTwo (scope ++ known) x y = readTwo scope x y := by
  unfold readTwo at h ⊢
  cases hbound : namesBound? x with
  | none => rfl
  | some bound =>
    simp only [hbound] at h ⊢
    have hx : readingOf? scope bound x ≠ some .ambiguous := by
      intro hx
      simp [hx] at h
    rw [readingOf?_append hx]
    cases hreading : readingOf? scope bound x with
    | some reading => rfl
    | none =>
      have hy : readingOf? scope bound y ≠ some .ambiguous := by
        intro hy
        simp [hreading, hy] at h
      rw [readingOf?_append hy]

theorem Agrees.functionClauses (hr : Agrees m known R n rule rule') {form name : Bytes}
    (hxs : ∀ x ∈ xs, x.height ≤ n) :
    Agree (known = []) (List.Forall₂ (Clause.Related m R))
      (functionClauses rule scope form name loc xs)
      (functionClauses rule' (scope ++ known) form name (m loc) (Form.relocateAll m xs)) := by
  have hsingle : Agree (known = []) (List.Forall₂ (Clause.Related m R))
      (Expr.singleClause rule scope form name loc xs)
      (Expr.singleClause rule' (scope ++ known) form name (m loc) (Form.relocateAll m xs)) :=
    hr.singleClause hxs
  unfold Expr.functionClauses
  rw [mapM_relocateAll m (clauseParts?_relocate m)]
  cases hparts : xs.mapM clauseParts? with
  | none => exact hsingle
  | some parts =>
    have hclauses : Agree (known = []) (List.Forall₂ (Clause.Related m R))
        (Report.forEach (clauseOfParts rule scope form) parts)
        (Report.forEach (clauseOfParts rule' (scope ++ known) form)
          (parts.map (relocateParts m))) := by
      refine agree_forEach fun p hp => ?_
      obtain ⟨x, hx, hpx⟩ := mem_of_mapM_eq_some hparts p hp
      obtain ⟨params, guard, body⟩ := p
      obtain ⟨hparams, hguard, hbody⟩ := (hereditary_height n).clauseParts? (hxs x hx) hpx
      exact hr.clause hparams hguard hbody
    match xs with
    | [] | [_] | _ :: _ :: _ :: _ => exact hclauses
    | [x, y] =>
      simp only [Option.map_some, Form.relocateAll, readTwo_relocate]
      by_cases hreading : known = [] ∨ readTwo scope x y ≠ .ambiguous
      · have hsame : readTwo (scope ++ known) x y = readTwo scope x y := by
          rcases hreading with rfl | hreading
          · rw [List.append_nil]
          · exact readTwo_append hreading
        rw [hsame]
        cases readTwo scope x y with
        | ambiguous => exact agree_fail _ _ _ _
        | single => exact hsingle
        | clauses => exact hclauses
      · rw [not_or, not_not] at hreading
        rw [hreading.2]
        exact ⟨fun hknown => absurd hknown hreading.1, fun _ _ h => by simp [Report.fail] at h⟩

theorem Agrees.functionDefinition (hr : Agrees m known R n rule rule')
    (hR : Congruence m known R) {exported : Bool} (hargs : ∀ x ∈ args, x.height ≤ n) :
    Agree (known = []) R (functionDefinition rule scope exported loc args)
      (functionDefinition rule' (scope ++ known) exported (m loc) (Form.relocateAll m args)) := by
  match args with
  | [] | [_] => exact agree_fail _ _ _ _
  | first :: x :: rest =>
    rw [List.forall_mem_cons] at hargs
    refine (expectName_agree _ first).bind ?_
    rintro name _ rfl
    exact (hr.functionClauses hargs.2).bind fun cs cs' hcs =>
      agree_pure (hR.defineFunction name exported hcs)

theorem Agrees.lambdaExpression (hr : Agrees m known R n rule rule') (hR : Congruence m known R)
    (hargs : ∀ x ∈ args, x.height ≤ n) :
    Agree (known = []) R (lambdaExpression rule scope loc args)
      (lambdaExpression rule' (scope ++ known) (m loc) (Form.relocateAll m args)) := by
  match args with
  | [] | [_] | [_, _, _] | _ :: _ :: _ :: _ :: _ :: _ => exact agree_fail _ _ _ _
  | [params, body] =>
    exact (hr.clause (hargs _ (by simp)) (guard_none n) (hargs _ (by simp))).bind
      fun c c' hc => agree_pure (hR.lambda hc)
  | [params, word, guard, body] =>
    have hguard : ∀ g ∈ some guard, g.height ≤ n := by
      rintro _ ⟨⟩
      exact hargs _ (by simp)
    simp only [Expr.lambdaExpression, Form.relocateAll, isWhen_relocate]
    split
    · exact (hr.clause (hargs _ (by simp)) hguard (hargs _ (by simp))).bind
        fun c c' hc => agree_pure (hR.lambda hc)
    · exact agree_fail _ _ _ _

theorem Agrees.definition (hr : Agrees m known R n rule rule') (hR : Congruence m known R)
    (hargs : ∀ x ∈ args, x.height ≤ n) :
    Agree (known = []) R (definition rule scope loc args)
      (definition rule' (scope ++ known) (m loc) (Form.relocateAll m args)) := by
  match args with
  | [] | [_] | _ :: _ :: _ :: _ => exact agree_fail _ _ _ _
  | [first, value] =>
    refine (expectName_agree _ first).bind ?_
    rintro name _ rfl
    exact (hr scope value (hargs _ (by simp))).bind fun e e' he => agree_pure (hR.define name he)

theorem Agrees.moduleDefinition (hr : Agrees m known R n rule rule') (hR : Congruence m known R)
    (hargs : ∀ x ∈ args, x.height ≤ n) :
    Agree (known = []) R (moduleDefinition rule scope loc args)
      (moduleDefinition rule' (scope ++ known) (m loc) (Form.relocateAll m args)) := by
  match args with
  | [] => exact agree_fail _ _ _ _
  | first :: forms =>
    rw [List.forall_mem_cons] at hargs
    refine (expectName_agree _ first).bind ?_
    rintro name _ rfl
    exact (hr.body hargs.2).bind fun es es' hes => agree_pure (hR.defineModule name hes)

theorem letPairs_agree (hx : x.height ≤ n) :
    Agree (known = []) (fun ps ps' => ps' = ps.map (Prod.map (Form.relocate m) (Form.relocate m)) ∧
      ∀ p ∈ ps, p.2.height ≤ n) (letPairs x) (letPairs (x.relocate m)) := by
  have hgives := letPairs_gives (hereditary_height n).toElementwise hx
  unfold letPairs at hgives ⊢
  rw [listed?_relocate]
  cases hl : listed? x with
  | none => exact agree_fail _ _ _ _
  | some xs =>
    simp only [hl, Option.map_some] at hgives ⊢
    rw [mapM_relocateAll m (pair?_relocate m), alternating?_relocateAll, ← Option.map_or]
    cases hpairs : (xs.mapM pair?).or (alternating? xs) with
    | none => exact agree_fail _ _ _ _
    | some pairs =>
      rw [hpairs] at hgives
      exact agree_pure ⟨rfl, fun p hp => (hgives pairs rfl p hp).2⟩

theorem Agrees.letBindings (hr : Agrees m known R n rule rule') {pairs : List (Form × Form)}
    (hpairs : ∀ p ∈ pairs, p.2.height ≤ n) :
    Agree (known = []) (fun r r' => List.Forall₂ (Binding.Related R) r.1 r'.1 ∧ r'.2 = r.2 ++ known)
      (letBindings rule scope pairs)
      (letBindings rule' (scope ++ known)
        (pairs.map (Prod.map (Form.relocate m) (Form.relocate m)))) := by
  induction pairs generalizing scope with
  | nil => exact agree_pure ⟨.nil, rfl⟩
  | cons p pairs ih =>
    rw [List.forall_mem_cons] at hpairs
    obtain ⟨x, value⟩ := p
    refine (expectName_agree _ x).bind ?_
    rintro name _ rfl
    refine (hr scope value hpairs.1).bind fun e e' he => ?_
    refine (bindName_agree scope name _ _).bind ?_
    rintro inner _ rfl
    refine (ih hpairs.2).bind ?_
    rintro ⟨bs, t⟩ ⟨bs', t'⟩ ⟨hbs, ht⟩
    exact agree_pure ⟨.cons ⟨rfl, he⟩ hbs, ht⟩

theorem Agrees.letExpression (hr : Agrees m known R n rule rule') (hR : Congruence m known R)
    (hargs : ∀ x ∈ args, x.height ≤ n) :
    Agree (known = []) R (letExpression rule scope loc args)
      (letExpression rule' (scope ++ known) (m loc) (Form.relocateAll m args)) := by
  match args with
  | [] | [_] | _ :: _ :: _ :: _ => exact agree_fail _ _ _ _
  | [bindings, inner] =>
    refine (letPairs_agree (hargs _ (by simp))).bind ?_
    rintro pairs _ ⟨rfl, hpairs⟩
    refine (hr.letBindings hpairs).bind ?_
    rintro ⟨bs, t⟩ ⟨bs', _⟩ ⟨hbs, rfl⟩
    exact (hr t inner (hargs _ (by simp))).bind fun e e' he => agree_pure (hR.letIn hbs he)

theorem Agrees.ifExpression (hr : Agrees m known R n rule rule') (hR : Congruence m known R)
    (hargs : ∀ x ∈ args, x.height ≤ n) :
    Agree (known = []) R (ifExpression rule scope loc args)
      (ifExpression rule' (scope ++ known) (m loc) (Form.relocateAll m args)) := by
  match args with
  | [] | [_] | _ :: _ :: _ :: _ :: _ => exact agree_fail _ _ _ _
  | [test, yes] =>
    exact (hr scope test (hargs _ (by simp))).bind fun e e' he =>
      (hr scope yes (hargs _ (by simp))).bind fun f f' hf =>
        agree_pure (hR.ifThenElse he hf (hR.literal .nil))
  | [test, yes, no] =>
    exact (hr scope test (hargs _ (by simp))).bind fun e e' he =>
      (hr scope yes (hargs _ (by simp))).bind fun f f' hf =>
        (hr scope no (hargs _ (by simp))).bind fun g g' hg =>
          agree_pure (hR.ifThenElse he hf hg)

theorem clausePair_agree {form : Bytes} (hx : x.height ≤ n) :
    Agree (known = []) (fun p p' => p' = Prod.map (Form.relocate m) (Form.relocate m) p ∧
      p.1.height ≤ n ∧ p.2.height ≤ n) (clausePair form x) (clausePair form (x.relocate m)) := by
  have hgives := (hereditary_height n).clausePair hx form
  unfold clausePair at hgives ⊢
  rw [listed?_relocate]
  match hl : listed? x with
  | none | some [] | some [_] | some (_ :: _ :: _ :: _) => exact agree_fail _ _ _ _
  | some [y, z] =>
    simp only [hl] at hgives
    exact agree_pure ⟨rfl, hgives _ rfl⟩

theorem Agrees.condExpression (hr : Agrees m known R n rule rule') (hR : Congruence m known R)
    (hargs : ∀ x ∈ args, x.height ≤ n) :
    Agree (known = []) R (condExpression rule scope loc args)
      (condExpression rule' (scope ++ known) (m loc) (Form.relocateAll m args)) := by
  have hbranches : Agree (known = []) (List.Forall₂ (Branch.Related R))
      (Report.forEach (branch rule scope) args)
      (Report.forEach (branch rule' (scope ++ known)) (args.map (Form.relocate m))) := by
    refine agree_forEach fun x hx => (clausePair_agree (hargs x hx)).bind ?_
    rintro ⟨test, result⟩ _ ⟨rfl, htest, hresult⟩
    exact (hr scope test htest).bind fun e e' he => (hr scope result hresult).bind fun f f' hf =>
      agree_pure ⟨he, hf⟩
  have hdefault : (args.map (Form.relocate m)).getLast?.any isDefaultBranch =
      args.getLast?.any isDefaultBranch := by
    rw [List.getLast?_map]
    cases args.getLast? with
    | none => rfl
    | some x => exact isDefaultBranch_relocate m x
  unfold Expr.condExpression
  rw [Form.relocateAll_eq_map, hdefault]
  refine hbranches.bind fun bs bs' hbs => ?_
  split
  · exact (agree_warn _ _).bind fun _ _ _ => agree_pure (hR.cond loc hbs)
  · exact agree_pure (hR.cond loc hbs)

theorem Agrees.caseExpression (hr : Agrees m known R n rule rule') (hR : Congruence m known R)
    (hargs : ∀ x ∈ args, x.height ≤ n) :
    Agree (known = []) R (caseExpression rule scope loc args)
      (caseExpression rule' (scope ++ known) (m loc) (Form.relocateAll m args)) := by
  match args with
  | [] => exact agree_fail _ _ _ _
  | scrutinee :: clauses =>
    rw [List.forall_mem_cons] at hargs
    have hchoices : Agree (known = []) (List.Forall₂ (Choice.Related R))
        (Report.forEach (choice rule scope) clauses)
        (Report.forEach (choice rule' (scope ++ known)) (clauses.map (Form.relocate m))) := by
      refine agree_forEach fun x hx => (clausePair_agree (hargs.2 x hx)).bind ?_
      rintro ⟨pattern, result⟩ _ ⟨rfl, -, hresult⟩
      exact (hr scope result hresult).bind fun e e' he =>
        agree_pure ⟨choiceDatum?_relocate m pattern, he⟩
    rw [Form.relocateAll, Form.relocateAll_eq_map]
    exact hchoices.bind fun cs cs' hcs => (hr scope scrutinee hargs.1).bind fun e e' he =>
      agree_pure (hR.caseOf loc he hcs)

theorem related_foldl {combine combine' : Expr → Expr → Expr}
    (hcombine : ∀ {e e' f f'}, R e e' → R f f' → R (combine e f) (combine' e' f'))
    {e e' : Expr} {es es' : List Expr} (he : R e e') (hes : List.Forall₂ R es es') :
    R (es.foldl combine e) (es'.foldl combine' e') := by
  induction hes generalizing e e' with
  | nil => exact he
  | cons hf _ ih => exact ih (hcombine he hf)

theorem Agrees.logical (hr : Agrees m known R n rule rule') {form : Bytes}
    {combine : Expr → Expr → Expr}
    (hcombine : ∀ {e e' f f'}, R e e' → R f f' → R (combine e f) (combine e' f'))
    (hargs : ∀ x ∈ args, x.height ≤ n) :
    Agree (known = []) R (logical rule scope form combine loc args)
      (logical rule' (scope ++ known) form combine (m loc) (Form.relocateAll m args)) := by
  match args with
  | [] | [_] => exact agree_fail _ _ _ _
  | first :: second :: rest =>
    rw [List.forall_mem_cons] at hargs
    exact (hr scope first hargs.1).bind fun e e' he => (hr.forEach hargs.2).bind fun es es' hes =>
      agree_pure (related_foldl hcombine he hes)

mutual

theorem Agrees.template (hr : Agrees m known R n rule rule') (hR : Congruence m known R)
    {x : Form} (hx : x.height ≤ n) :
    Agree (known = []) R (template rule scope x)
      (template rule' (scope ++ known) (x.relocate m)) := by
  match x with
  | .atom loc a =>
    cases a with
    | interpolation name => exact agree_pure (hR.localRef name)
    | _ => exact agree_pure (hR.literal _)
  | .marked loc k y =>
    have hdatum := Datum.ofForm_relocate m (.marked loc k y)
    cases k with
    | unquote => exact hr scope y ((hereditary_height n).datum hx)
    | splice => exact agree_fail _ _ _ _
    | quote | quasiquote =>
      refine agree_pure ?_
      rw [Form.relocate] at hdatum
      rw [hdatum]
      exact hR.literal _
  | .sequence loc b xs =>
    have hxs := (hereditary_height n).elements hx
    have hdatum := Datum.ofForm_relocate m (.sequence loc b xs)
    rw [Form.relocate] at hdatum ⊢
    rw [Expr.template.eq_def, Expr.template.eq_def rule']
    dsimp only
    rw [anyUnquote_relocateAll, hdatum]
    split
    · exact agree_pure (hR.literal _)
    · cases b with
      | brace =>
        exact (hr.templateTuple hR hxs).bind fun es es' hes => agree_pure (hR.makeTuple hes)
      | paren | square =>
        exact (hr.templateList hR hxs).bind fun es es' hes => agree_pure (hR.makeList hes)

theorem Agrees.templateTuple (hr : Agrees m known R n rule rule') (hR : Congruence m known R)
    {xs : List Form} (hxs : ∀ x ∈ xs, x.height ≤ n) :
    Agree (known = []) (List.Forall₂ R) (templateTuple rule scope xs)
      (templateTuple rule' (scope ++ known) (Form.relocateAll m xs)) := by
  match xs with
  | [] => exact agree_pure .nil
  | x :: xs =>
    rw [List.forall_mem_cons] at hxs
    have hrest := (hr.template hR hxs.1).bind fun e e' he =>
      (hr.templateTuple hR hxs.2).bind fun es es' hes =>
        agree_pure (List.Forall₂.cons he hes)
    rw [Form.relocateAll, Expr.templateTuple, Expr.templateTuple, spliced?_relocate,
      Option.isSome_map]
    split
    · exact (agree_fail (R := fun _ _ => True) _ _ _ _).bind fun _ _ _ => hrest
    · exact hrest

theorem Agrees.templateList (hr : Agrees m known R n rule rule') (hR : Congruence m known R)
    {xs : List Form} (hxs : ∀ x ∈ xs, x.height ≤ n) :
    Agree (known = []) (List.Forall₂ (Element.Related R)) (templateList rule scope xs)
      (templateList rule' (scope ++ known) (Form.relocateAll m xs)) := by
  match xs with
  | [] => exact agree_pure .nil
  | x :: xs =>
    rw [List.forall_mem_cons] at hxs
    have hrest : ∀ spliced e e', R e e' → Agree (known = []) (List.Forall₂ (Element.Related R))
        (Expr.templateList rule scope xs >>= fun es => pure (⟨spliced, e⟩ :: es))
        (Expr.templateList rule' (scope ++ known) (Form.relocateAll m xs) >>= fun es =>
          pure (⟨spliced, e'⟩ :: es)) :=
      fun spliced e e' he => (hr.templateList hR hxs.2).bind fun es es' hes =>
        agree_pure (.cons ⟨rfl, he⟩ hes)
    rw [Form.relocateAll, Expr.templateList, Expr.templateList, spliced?_relocate]
    cases hsplice : spliced? x with
    | some y =>
      exact (hr scope y ((hereditary_height n).spliced? hxs.1 hsplice)).bind (hrest true)
    | none => exact (hr.template hR hxs.1).bind (hrest false)

end

theorem Agrees.operationCall (hr : Agrees m known R n rule rule') (hR : Congruence m known R)
    {op : Operation.Entry} (hargs : ∀ x ∈ args, x.height ≤ n) :
    Agree (known = []) R (operationCall rule scope loc args op)
      (operationCall rule' (scope ++ known) (m loc) (Form.relocateAll m args) op) := by
  have hes : Agree (known = []) (List.Forall₂ R) (Report.forEach (rule scope) args)
      (Report.forEach (rule' (scope ++ known)) (Form.relocateAll m args)) := hr.forEach hargs
  have hall := hes.bind fun es es' hes => agree_pure (hR.operation loc op.operation hes)
  unfold Expr.operationCall
  cases op.arity with
  | unary => exact (checkCount_agree _ _ _ _ _ args).bind fun _ _ _ => hall
  | binary => exact (checkCount_agree _ _ _ _ _ args).bind fun _ _ _ => hall
  | variadic => exact hall
  | fold =>
    match args with
    | [] => exact agree_fail _ _ _ _
    | [x] =>
      simp only [Form.relocateAll]
      split
      · exact (hr scope x (hargs _ (by simp))).bind fun e e' he =>
          agree_pure (hR.operation loc .negate (.cons he .nil))
      · exact agree_fail _ _ _ _
    | first :: second :: rest =>
      rw [List.forall_mem_cons] at hargs
      refine (hr scope first hargs.1).bind fun e e' he =>
        (hr.forEach hargs.2).bind fun es es' hes => agree_pure (related_foldl ?_ he hes)
      exact fun he hf => hR.operation loc op.operation (.cons he (.cons hf .nil))

theorem Agrees.fieldAccess (hr : Agrees m known R n rule rule') (hR : Congruence m known R)
    {field : Bytes} (hargs : ∀ x ∈ args, x.height ≤ n) :
    Agree (known = []) R (fieldAccess rule scope loc field args)
      (fieldAccess rule' (scope ++ known) (m loc) field (Form.relocateAll m args)) := by
  match args with
  | [] | _ :: _ :: _ => exact agree_fail _ _ _ _
  | [x] =>
    exact (hr scope x (hargs _ (by simp))).bind fun e e' he =>
      agree_pure (hR.operation loc .lookup (.cons he (.cons (hR.literal _) .nil)))

theorem onlyArgument_agree (form : SpecialForm) (hargs : ∀ x ∈ args, x.height ≤ n) :
    Agree (known = []) (fun x x' => x' = x.relocate m ∧ x.height ≤ n)
      (onlyArgument form loc args) (onlyArgument form (m loc) (Form.relocateAll m args)) := by
  match args with
  | [] | _ :: _ :: _ => exact agree_fail _ _ _ _
  | [x] => exact agree_pure ⟨rfl, hargs x (by simp)⟩

theorem related_plainElements {es es' : List Expr} (h : List.Forall₂ R es es') :
    List.Forall₂ (Element.Related R) (es.map plainElement) (es'.map plainElement) := by
  induction h with
  | nil => exact .nil
  | cons he _ ih => exact .cons ⟨rfl, he⟩ ih

theorem Agrees.specialForm (hr : Agrees m known R n rule rule') (hR : Congruence m known R)
    {form : SpecialForm} (hargs : ∀ x ∈ args, x.height ≤ n) :
    Agree (known = []) R (specialForm rule scope loc args form)
      (specialForm rule' (scope ++ known) (m loc) (Form.relocateAll m args) form) := by
  have honly : ∀ form, Agree (known = []) (fun x x' => x' = x.relocate m ∧ x.height ≤ n)
      (onlyArgument form loc args) (onlyArgument form (m loc) (Form.relocateAll m args)) :=
    fun form => onlyArgument_agree form hargs
  cases form with
  | defineFunction => exact hr.functionDefinition hR hargs
  | definePrivate => exact hr.functionDefinition hR hargs
  | define => exact hr.definition hR hargs
  | defineModule => exact hr.moduleDefinition hR hargs
  | letIn => exact hr.letExpression hR hargs
  | ifThen => exact hr.ifExpression hR hargs
  | cond => exact hr.condExpression hR hargs
  | caseOf => exact hr.caseExpression hR hargs
  | lambda => exact hr.lambdaExpression hR hargs
  | sequence => exact (hr.body hargs).bind fun es es' hes => agree_pure (hR.sequence hes)
  | quote =>
    refine (honly _).bind ?_
    rintro x _ ⟨rfl, -⟩
    rw [Datum.ofForm_relocate]
    exact agree_pure (hR.literal _)
  | quasiquote =>
    refine (honly _).bind ?_
    rintro x _ ⟨rfl, hx⟩
    exact hr.template hR hx
  | unquote =>
    refine (honly _).bind ?_
    rintro x _ ⟨rfl, hx⟩
    exact hr scope x hx
  | splice =>
    refine (honly _).bind ?_
    rintro x _ ⟨rfl, hx⟩
    exact hr scope x hx
  | attempt =>
    refine (honly _).bind ?_
    rintro x _ ⟨rfl, hx⟩
    exact (hr scope x hx).bind fun e e' he => agree_pure (hR.attempt he)
  | and => exact hr.logical hR.and hargs
  | or => exact hr.logical hR.or hargs
  | list =>
    exact (hr.forEach hargs).bind fun es es' hes =>
      agree_pure (hR.makeList (related_plainElements hes))

theorem Agrees.callByName (hr : Agrees m known R n rule rule') (hR : Congruence m known R)
    {name : Bytes} (hargs : ∀ x ∈ args, x.height ≤ n) :
    Agree (known = []) R (callByName rule scope loc name args)
      (callByName rule' (scope ++ known) (m loc) name (Form.relocateAll m args)) := by
  unfold Expr.callByName
  cases SpecialForm.ofName? name with
  | some form => exact hr.specialForm hR hargs
  | none =>
    cases Operation.find? name with
    | some op => exact hr.operationCall hR hargs
    | none =>
      cases fieldName? name with
      | some field => exact hr.fieldAccess hR hargs
      | none =>
        refine (hr.forEach hargs).bind fun es es' hes => ?_
        by_cases hscope : name ∈ scope
        · simp only [List.contains_iff_mem, List.mem_append, hscope, true_or, if_true]
          exact agree_pure (hR.apply loc (hR.localRef name) hes)
        · by_cases hknown : name ∈ known
          · simp only [List.contains_iff_mem, List.mem_append, hscope, hknown, or_true, if_true,
              if_false]
            cases hqualified : qualified? name with
            | none => exact agree_pure (hR.knownCall loc hknown hes)
            | some p => exact agree_pure (hR.knownMember loc hknown hqualified hes)
          · simp only [List.contains_iff_mem, List.mem_append, hscope, hknown, or_false, if_false]
            cases qualified? name with
            | none => exact agree_pure (hR.call loc name hes)
            | some p => exact agree_pure (hR.memberCall loc p.1 p.2 hes)

theorem Agrees.listExpression (hr : Agrees m known R n rule rule') (hR : Congruence m known R)
    (hxs : ∀ x ∈ xs, x.height ≤ n) :
    Agree (known = []) R (listExpression rule scope loc xs)
      (listExpression rule' (scope ++ known) (m loc) (Form.relocateAll m xs)) := by
  match xs with
  | [] => exact agree_pure (hR.literal _)
  | head :: args =>
    rw [List.forall_mem_cons] at hxs
    have hes : Agree (known = []) (List.Forall₂ R) (Report.forEach (rule scope) args)
        (Report.forEach (rule' (scope ++ known)) (Form.relocateAll m args)) := hr.forEach hxs.2
    have hcall := (hr scope head hxs.1).bind fun e e' he =>
      hes.bind fun es es' hes => agree_pure (hR.apply loc he hes)
    cases head with
    | atom _ a =>
      cases a with
      | symbol name => exact hr.callByName hR hxs.2
      | keyword field => exact hr.fieldAccess hR hxs.2
      | interpolation name => exact hcall
      | _ => exact agree_fail _ _ _ _
    | sequence _ b _ =>
      cases b with
      | paren => exact hcall
      | _ => exact agree_fail _ _ _ _
    | marked _ k _ =>
      cases k with
      | unquote => exact hcall
      | _ => exact agree_fail _ _ _ _

theorem Agrees.formExpression (hr : Agrees m known R n rule rule') (hR : Congruence m known R)
    (hx : x.height ≤ n + 1) :
    Agree (known = []) R (formExpression rule scope x)
      (formExpression rule' (scope ++ known) (x.relocate m)) := by
  match x with
  | .atom loc a =>
    cases a with
    | symbol name =>
      refine agree_pure ?_
      by_cases hscope : name ∈ scope
      · simp only [List.contains_iff_mem, List.mem_append, hscope, true_or, if_true]
        exact hR.localRef name
      · by_cases hknown : name ∈ known
        · simp only [List.contains_iff_mem, List.mem_append, hscope, hknown, or_true, if_true,
            if_false]
          exact hR.knownRef loc hknown
        · simp only [List.contains_iff_mem, List.mem_append, hscope, hknown, or_false, if_false]
          exact hR.freeRef loc name
    | interpolation name => exact agree_pure (hR.localRef name)
    | _ => exact agree_pure (hR.literal _)
  | .marked loc k y =>
    have hy : y.height ≤ n := by
      rw [Form.height] at hx
      omega
    cases k with
    | quote =>
      refine agree_pure ?_
      rw [Datum.ofForm_relocate]
      exact hR.literal _
    | quasiquote => exact hr.template hR hy
    | unquote => exact hr scope y hy
    | splice => exact hr scope y hy
  | .sequence loc b xs =>
    have hxs : ∀ y ∈ xs, y.height ≤ n := fun y hy => by
      have hlt := Form.height_lt_of_mem hy loc b
      omega
    cases b with
    | paren => exact hr.listExpression hR hxs
    | square =>
      exact (hr.forEach hxs).bind fun es es' hes =>
        agree_pure (hR.makeList (related_plainElements hes))
    | brace => exact (hr.forEach hxs).bind fun es es' hes => agree_pure (hR.makeTuple hes)

theorem agrees_ofFormWithin (hR : Congruence m known R) {i j : Nat} (hi : n ≤ i) (hj : n ≤ j) :
    Agrees m known R n (ofFormWithin i) (ofFormWithin j) := by
  induction n generalizing i j with
  | zero =>
    intro scope x hx
    have hpos := height_pos x
    omega
  | succ n ih =>
    intro scope x hx
    obtain ⟨i, rfl⟩ := Nat.exists_eq_succ_of_ne_zero (by omega : i ≠ 0)
    obtain ⟨j, rfl⟩ := Nat.exists_eq_succ_of_ne_zero (by omega : j ≠ 0)
    exact (ih (Nat.le_of_succ_le_succ hi) (Nat.le_of_succ_le_succ hj)).formExpression hR hx

end Rules

theorem agrees_ofForm {m : Location → Location} {known : Scope} {R : Expr → Expr → Prop}
    (hR : Congruence m known R) (n : Nat) : Agrees m known R n ofForm ofForm := by
  intro scope x _
  unfold ofForm
  rw [Form.height_relocate]
  exact agrees_ofFormWithin hR (Nat.le_refl _) (Nat.le_refl _) scope x (Nat.le_refl _)

section Same

theorem eq_of_forall₂ {α : Type} {R : α → α → Prop} (hR : ∀ a a', R a a' → a = a') {as as' : List α}
    (h : List.Forall₂ R as as') : as = as' :=
  List.forall₂_eq_eq_eq ▸ h.imp hR

theorem eq_of_related_clause {c c' : Clause} (h : Clause.Related id Eq c c') : c = c' := by
  obtain ⟨loc, ps, guards, body⟩ := c
  obtain ⟨loc', ps', guards', body'⟩ := c'
  obtain ⟨hloc, hps, hguards, hbody⟩ := h
  rw [Clause.mk.injEq]
  exact ⟨hloc.symm, hps.symm, eq_of_forall₂ (fun _ _ => id) hguards, hbody⟩

theorem congruence_eq : Congruence id [] Eq where
  literal _ := rfl
  localRef _ := rfl
  freeRef _ _ := rfl
  call _ _ _ _ hes := by rw [eq_of_forall₂ (fun _ _ => id) hes]; rfl
  memberCall _ _ _ _ _ hes := by rw [eq_of_forall₂ (fun _ _ => id) hes]; rfl
  apply _ _ _ _ _ he hes := by rw [he, eq_of_forall₂ (fun _ _ => id) hes]; rfl
  operation _ _ _ _ hes := by rw [eq_of_forall₂ (fun _ _ => id) hes]; rfl
  and he hf := by rw [he, hf]
  or he hf := by rw [he, hf]
  ifThenElse he hf hg := by rw [he, hf, hg]
  cond _ _ _ hbs := by
    rw [eq_of_forall₂ ?_ hbs]
    · rfl
    · rintro ⟨_, _⟩ ⟨_, _⟩ ⟨htest, hresult⟩
      exact congrArg₂ Branch.mk htest hresult
  caseOf _ _ _ _ _ he hcs := by
    rw [he, eq_of_forall₂ ?_ hcs]
    · rfl
    · rintro ⟨_, _⟩ ⟨_, _⟩ ⟨hdatum, hbody⟩
      exact congrArg₂ Choice.mk hdatum.symm hbody
  letIn hbs he := by
    rw [he, eq_of_forall₂ ?_ hbs]
    rintro ⟨_, _⟩ ⟨_, _⟩ ⟨hname, hvalue⟩
    exact congrArg₂ Binding.mk hname.symm hvalue
  lambda hc := by rw [eq_of_related_clause hc]
  defineFunction _ _ _ _ hcs := by rw [eq_of_forall₂ (fun _ _ => eq_of_related_clause) hcs]
  define _ _ _ he := by rw [he]
  sequence hes := by rw [eq_of_forall₂ (fun _ _ => id) hes]
  attempt he := by rw [he]
  makeList hes := by
    rw [eq_of_forall₂ ?_ hes]
    rintro ⟨_, _⟩ ⟨_, _⟩ ⟨hspliced, hvalue⟩
    exact congrArg₂ Element.mk hspliced.symm hvalue
  makeTuple hes := by rw [eq_of_forall₂ (fun _ _ => id) hes]
  defineModule _ _ _ hes := by rw [eq_of_forall₂ (fun _ _ => id) hes]
  knownRef _ _ h := absurd h List.not_mem_nil
  knownCall _ _ _ _ h := absurd h List.not_mem_nil
  knownMember _ _ _ _ _ _ h := absurd h List.not_mem_nil

theorem agrees_ofFormWithin_ofForm (n : Nat) : Agrees id [] Eq n (ofFormWithin n) ofForm := by
  intro scope x hx
  unfold ofForm
  rw [Form.height_relocate]
  exact agrees_ofFormWithin congruence_eq hx (Nat.le_refl _) scope x (Nat.le_refl _)

theorem ofForm_quasiquote (scope : Scope) (loc : Location) (x : Form) :
    (ofForm scope (.marked loc .quasiquote x)).result.toOption =
      (template ofForm scope x).result.toOption := by
  have hagree : Agree ([] = []) Eq (template (ofFormWithin x.height) scope x)
      (template ofForm (scope ++ []) (x.relocate id)) :=
    (agrees_ofFormWithin_ofForm x.height).template congruence_eq (Nat.le_refl _)
  have hsame := hagree.toOption_eq rfl
  rw [Form.relocate_id, List.append_nil] at hsame
  exact hsame.symm

theorem ofForm_eq_specialForm {name : Bytes} {form : SpecialForm}
    (hname : SpecialForm.ofName? name = some form) (scope : Scope) (loc loc' : Location)
    (args : List Form) :
    ofForm scope (.sequence loc .paren (.atom loc' (.symbol name) :: args)) =
      specialForm (ofFormWithin (Form.heightAll (.atom loc' (.symbol name) :: args))) scope loc
        args form := by
  show callByName _ scope loc name args = _
  rw [callByName, hname]

theorem toOption_ofForm_call (scope : Scope) (loc loc' : Location) (name : Bytes)
    (args : List Form) :
    (ofForm scope (.sequence loc .paren (.atom loc' (.symbol name) :: args))).result.toOption =
      (callByName ofForm scope loc name args).result.toOption := by
  let n := Form.heightAll (.atom loc' (.symbol name) :: args)
  have hargs : ∀ x ∈ args, x.height ≤ n :=
    (List.forall_mem_cons.mp (Form.heightAll_le_iff.mp (Nat.le_refl n))).2
  have hagree : Agree ([] = []) Eq (callByName (ofFormWithin n) scope loc name args)
      (callByName ofForm (scope ++ []) loc name (Form.relocateAll id args)) :=
    (agrees_ofFormWithin_ofForm n).callByName congruence_eq hargs
  have hsame := hagree.toOption_eq rfl
  rw [Form.relocateAll_id, List.append_nil] at hsame
  exact hsame.symm

theorem ofForm_special {name : Bytes} {form : SpecialForm}
    (hname : SpecialForm.ofName? name = some form) (scope : Scope) (loc loc' : Location)
    (args : List Form) :
    (ofForm scope (.sequence loc .paren (.atom loc' (.symbol name) :: args))).result.toOption =
      (specialForm ofForm scope loc args form).result.toOption := by
  rw [toOption_ofForm_call, callByName, hname]

end Same

end Expr
end ClauseLisp
