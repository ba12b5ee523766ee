import ClauseLisp.Proofs.Builtin.Calls
import ClauseLisp.Proofs.Expr.Parts

/-! Disciplines of programs. A discipline is a contract together with what expressions and clauses
have to satisfy to be evaluated under it. The main statement, `Discipline.agree_step`, goes through
the evaluation of every kind of expression once: one step keeps the discipline if the tasks inside
it do. -/

namespace ClauseLisp

open Machine (bindValue)

structure Discipline extends Contract where
  /-- Expressions that may be evaluated in a context, at the top of a module or not. -/
  Fits : World → Context → Bool → Expr → Prop
  Runs : World → Home → ValueFrame → Clause → Prop
  /-- What the evaluation of an expression at the top leaves behind. -/
  Leaves : World → Context → Expr → Prop
  fits_later : ∀ {w w' c top e}, Later w w' → Fits w c top e → Fits w' c top e
  runs_later : ∀ {w w' home frame clause}, Later w w' → Runs w home frame clause →
    Runs w' home frame clause
  good_definition : ∀ {w home name v}, Good w → w.definition? home name = some v →
    v.All (Sound w)
  good_function : ∀ {w home name f}, Good w → w.function? home name = some f →
    (∀ id, Sound w (.function id home name)) ∧ ∀ clause ∈ f.clauses, Runs w home [] clause
  runs_closure : ∀ {w id clause frame home}, Sound w (.closure id clause frame home) →
    Runs w home frame clause
  fits_clause : ∀ {w home frame frame' depth clause args e}, Runs w home frame clause →
    Pattern.matchAll? clause.parameters args frame = some frame' →
    e ∈ clause.body :: clause.guards → Fits w ⟨home, frame', depth⟩ false e
  fits_parts : ∀ {w c top e x}, Fits w c top e → x ∈ e.parts → Fits w c false x
  fits_localRef : ∀ {w c top name}, Good w → Fits w c top (.localRef name) →
    c.frame.lookup name = none → Machine.definition? w c.home name = none →
    Allowed (.unboundVariable name)
  fits_operation : ∀ {w c top loc op operands n}, Fits w c top (.operation loc op operands) →
    op.operands? = some n → operands.length ≠ n → Allowed .malformed
  fits_letNil : ∀ {w c top body}, Fits w c top (.letIn [] body) → Fits w c false body
  fits_letCons : ∀ {w c top b bs body}, Fits w c top (.letIn (b :: bs) body) →
    Fits w c false b.value ∧ ∀ v, Fits w (bindValue c b.name v) false (.letIn bs body)
  fits_lambda : ∀ {w c top clause}, Fits w c top (.lambda clause) →
    ∀ id, Sound w (.closure id clause c.frame c.home)
  fits_bodyCons : ∀ {w c e es}, Fits w c false (.sequence (e :: es)) →
    Fits w c false e ∧ (e.isDefinition = false → Fits w c false (.sequence es))
  fits_bodyDefine : ∀ {w c name e es}, Fits w c false (.sequence (.define name e :: es)) →
    ∀ v, Fits w (bindValue c name v) false (.sequence es)
  fits_topCons : ∀ {w c e es}, Fits w c true (.sequence (e :: es)) →
    Fits w c true e ∧ ∀ {w'}, Later w w' → Leaves w' c e → Fits w' c true (.sequence es)
  leaves : ∀ {w c e}, e.isDefinition = false → Leaves w c e
  define : ∀ {w c name e v}, Good w → Fits w c true (.define name e) → v.All (Sound w) →
    toContract.Next w (w.update c.home (·.define name v)) ∧
      Leaves (w.update c.home (·.define name v)) c (.define name e)
  defineFunction : ∀ {w c top name exported clauses}, Good w →
    Fits w c top (.defineFunction name exported clauses) →
    toContract.Next w (w.update c.home (·.addClauses name exported clauses)) ∧
      ∀ id, Sound (w.update c.home (·.addClauses name exported clauses)) (.function id c.home name)
  defineModule : ∀ {w c top name es}, Good w → Fits w c top (.defineModule name es) →
    toContract.Next w (w.ensureModule name) ∧
      Fits (w.ensureModule name) ⟨.named name, [], c.depth⟩ true (.sequence es)

namespace Discipline

variable (D : Discipline)

def HoldsFrame (w : World) (f : ValueFrame) : Prop := ∀ e ∈ f, D.Holds w e.2

def Callable (w : World) (callee : Callee) : Prop :=
  D.HoldsFrame w callee.frame ∧
    match callee.lambda? with
    | some clause => D.Runs w callee.home callee.frame clause
    | none => callee.frame = []

def Accepts (w : World) : Task → Prop
  | .evaluate c top e => D.HoldsFrame w c.frame ∧ D.Fits w c top e
  | .call _ p args => D.Holds w (.procedure p) ∧ D.HoldsAll w args
  | .select _ callee args _ => D.Callable w callee ∧ D.HoldsAll w args

def Gives (task : Task) (w : World) (v : Value) : Prop :=
  D.Holds w v ∧ ∀ c e, task = .evaluate c true e → D.Leaves w c e

def Machines (m m' : Machine) : Prop :=
  ∀ w task, D.Good w → D.Accepts w task → D.Agree w (m task) (m' task) (D.Gives task)

open Contract (agree_pure agree_raise agree_ite agree_ofExcept agree_look_bind agree_change
  agree_freshId agree_forEach next_refl)

section Step

variable {D} {m m' : Machine} {w w' : World} {c : Context} {limit depth : Nat} {home : Home}
  {name : Bytes} {args : List Value} {v : Value} {e : Expr}

theorem HoldsFrame.later {f : ValueFrame} (h : D.HoldsFrame w f) (hl : D.Later w w') :
    D.HoldsFrame w' f :=
  fun b hb => (h b hb).later hl

theorem HoldsFrame.bindValue (h : D.HoldsFrame w c.frame) (hv : D.Holds w v) (name : Bytes) :
    D.HoldsFrame w (bindValue c name v).frame :=
  List.forall_mem_cons.mpr ⟨hv, h⟩

theorem holds_definition? (hw : D.Good w) (h : Machine.definition? w home name = some v) :
    D.Holds w v := by
  rcases Option.or_eq_some_iff.mp h with h | ⟨-, h⟩
  · exact D.good_definition hw h
  · exact D.good_definition hw h

theorem callable_function (home : Home) (name : Bytes) : D.Callable w (.function home name) :=
  ⟨List.forall_mem_nil _, rfl⟩

theorem Callable.runs {callee : Callee} (h : D.Callable w callee) (hw : D.Good w) {clause : Clause}
    (hc : clause ∈ callee.clauses w) : D.Runs w callee.home callee.frame clause := by
  obtain ⟨-, hrun⟩ := h
  unfold Callee.clauses at hc
  cases hl : callee.lambda? with
  | some c =>
    simp only [hl, List.mem_singleton] at hc hrun
    exact hc ▸ hrun
  | none =>
    simp only [hl] at hc hrun
    rw [hrun]
    cases hf : w.function? callee.home callee.name with
    | none => simp [hf] at hc
    | some f =>
      simp only [hf, Option.map_some, Option.getD_some] at hc
      exact (D.good_function hw hf).2 clause hc

theorem agree_evaluate (hm : D.Machines m m') (hw : D.Good w) (hframe : D.HoldsFrame w c.frame)
    (h : D.Fits w c false e) :
    D.Agree w (Machine.evaluate m c e) (Machine.evaluate m' c e) D.Holds :=
  (hm w (.evaluate c false e) hw ⟨hframe, h⟩).weaken fun _ _ _ h => h.1

theorem agree_evaluateAll {es : List Expr} (hm : D.Machines m m') (hw : D.Good w)
    (hframe : D.HoldsFrame w c.frame) (h : ∀ e ∈ es, D.Fits w c false e) :
    D.Agree w (Machine.evaluateAll m c es) (Machine.evaluateAll m' c es)
      fun w' vs => vs.length = es.length ∧ D.HoldsAll w' vs :=
  agree_forEach (R := D.Holds) hw (fun hl h => h.later hl) fun e he _ hnext =>
    agree_evaluate hm hnext.1 (hframe.later hnext.2) (D.fits_later hnext.2 (h e he))

theorem agree_call {p : Procedure} (hm : D.Machines m m') (hw : D.Good w)
    (hp : D.Holds w (.procedure p)) (hargs : D.HoldsAll w args) :
    D.Agree w (m (.call depth p args)) (m' (.call depth p args)) D.Holds :=
  (hm w (.call depth p args) hw ⟨hp, hargs⟩).weaken fun _ _ _ h => h.1

theorem agree_select {callee : Callee} {index : Nat} (hm : D.Machines m m') (hw : D.Good w)
    (hcallee : D.Callable w callee) (hargs : D.HoldsAll w args) :
    D.Agree w (m (.select depth callee args index)) (m' (.select depth callee args index))
      D.Holds :=
  (hm w (.select depth callee args index) hw ⟨hcallee, hargs⟩).weaken fun _ _ _ h => h.1

theorem agree_invoke {callee : Callee} (hm : D.Machines m m') (hw : D.Good w)
    (hcallee : D.Callable w callee) (hargs : D.HoldsAll w args) :
    D.Agree w (Machine.invoke limit m depth callee args)
      (Machine.invoke limit m' depth callee args) D.Holds :=
  agree_ite (fun _ => agree_raise hw (D.allowed rfl)) fun _ => agree_select hm hw hcallee hargs

theorem agree_callFunction (hm : D.Machines m m') (hw : D.Good w) (hargs : D.HoldsAll w args) :
    D.Agree w (Machine.callFunction limit m depth home name args)
      (Machine.callFunction limit m' depth home name args) D.Holds :=
  agree_invoke hm hw (callable_function home name) hargs

theorem agree_callValue (hm : D.Machines m m') (hw : D.Good w) (hv : D.Holds w v)
    (hargs : D.HoldsAll w args) :
    D.Agree w (Machine.callValue m depth v args) (Machine.callValue m' depth v args) D.Holds := by
  refine (agree_ofExcept (Q := fun w p => D.Holds w (.procedure p)) hw
    (Value.computes_expectProcedure hv) fun _ h => h).bind fun p w' hnext hp => ?_
  exact agree_call hm hnext.1 hp (hargs.later hnext.2)

theorem agree_callProcedure {p : Procedure} (hm : D.Machines m m') (hw : D.Good w)
    (hp : D.Holds w (.procedure p)) (hargs : D.HoldsAll w args) :
    D.Agree w (Machine.callProcedure limit m depth args p)
      (Machine.callProcedure limit m' depth args p) D.Holds := by
  cases p with
  | closure id clause frame home =>
    obtain ⟨hclosure, hframe⟩ := Value.all_closure.mp hp
    exact agree_invoke hm hw ⟨hframe, D.runs_closure hclosure⟩ hargs
  | function id home name =>
    refine agree_look_bind ?_
    cases w.function? home name with
    | none => exact agree_raise hw (D.allowed rfl)
    | some f => exact agree_callFunction hm hw hargs
  | builtin name b =>
    refine Builtin.agree_invoke hw ?_ hargs
    intro w' p args' hnext hp hargs
    exact agree_call hm hnext.1 hp hargs
  | composition id outer inner =>
    obtain ⟨-, houter, hinner⟩ := Value.all_composition.mp hp
    refine (agree_call hm hw hinner hargs).bind fun v w' hnext hv => ?_
    exact agree_call hm hnext.1 (Contract.Holds.later houter hnext.2)
      (Contract.holdsAll_singleton hv)
  | partialApplication id p arg =>
    obtain ⟨-, hp, harg⟩ := Value.all_partialApplication.mp hp
    exact agree_call hm hw hp (List.forall_mem_cons.mpr ⟨harg, hargs⟩)
  | constant id v =>
    exact agree_pure hw (Value.all_constant.mp hp).2

theorem agree_guardHolds (hm : D.Machines m m') (hw : D.Good w) (hframe : D.HoldsFrame w c.frame)
    (h : D.Fits w c false e) :
    D.Agree w (Machine.guardHolds m c e) (Machine.guardHolds m' c e) fun _ _ => True := by
  have hvalue := (agree_evaluate hm hw hframe h).bind (R := fun _ _ => True)
    fun v w' hnext _ => agree_pure (a := v.truthy) hnext.1 trivial
  refine hvalue.catching hw fun f w' hnext hf => ?_
  exact agree_ite (fun _ => agree_pure hnext.1 trivial) fun _ => agree_raise hnext.1 hf

theorem agree_guardsHold {gs : List Expr} (hm : D.Machines m m') (hw : D.Good w)
    (hframe : D.HoldsFrame w c.frame) (h : ∀ g ∈ gs, D.Fits w c false g) :
    D.Agree w (Machine.guardsHold m c gs) (Machine.guardsHold m' c gs) fun _ _ => True := by
  induction gs generalizing w with
  | nil => exact agree_pure hw trivial
  | cons g gs ih =>
    rw [List.forall_mem_cons] at h
    refine (agree_guardHolds hm hw hframe h.1).bind fun b w' hnext _ => ?_
    refine agree_ite (fun _ => ?_) fun _ => agree_pure hnext.1 trivial
    exact ih hnext.1 (hframe.later hnext.2) fun x hx => D.fits_later hnext.2 (h.2 x hx)

theorem Callable.later {callee : Callee} (h : D.Callable w callee) (hl : D.Later w w') :
    D.Callable w' callee := by
  obtain ⟨hframe, hrun⟩ := h
  refine ⟨hframe.later hl, ?_⟩
  cases hc : callee.lambda? with
  | some clause =>
    simp only [hc] at hrun
    exact D.runs_later hl hrun
  | none => simpa only [hc] using hrun

theorem agree_selectStep {callee : Callee} {index : Nat} (hm : D.Machines m m') (hw : D.Good w)
    (hcallee : D.Callable w callee) (hargs : D.HoldsAll w args) :
    D.Agree w (Machine.select m depth callee args index)
      (Machine.select m' depth callee args index) D.Holds := by
  refine agree_look_bind ?_
  cases hclause : (callee.clauses w)[index]? with
  | none => exact agree_raise hw (D.allowed rfl)
  | some clause =>
    have hrun := hcallee.runs hw (List.mem_of_getElem? hclause)
    cases hmatch : Pattern.matchAll? clause.parameters args callee.frame with
    | none =>
      simp only [hmatch]
      exact agree_select hm hw hcallee hargs
    | some frame =>
      have hframe : D.HoldsFrame w frame :=
        (Pattern.extends_of_matchAll? hmatch).all hargs hcallee.1
      have hfits : ∀ x ∈ clause.body :: clause.guards,
          D.Fits w ⟨callee.home, frame, depth⟩ false x := fun x => D.fits_clause hrun hmatch
      rw [List.forall_mem_cons] at hfits
      simp only [hmatch]
      refine (agree_guardsHold hm hw hframe hfits.2).bind fun b w' hnext _ => ?_
      refine agree_ite (fun _ => ?_) fun _ => ?_
      · exact agree_evaluate hm hnext.1 (hframe.later hnext.2) (D.fits_later hnext.2 hfits.1)
      · exact agree_select hm hnext.1 (hcallee.later hnext.2) (hargs.later hnext.2)

theorem holds_lookup {f : ValueFrame} (h : D.HoldsFrame w f) (hv : f.lookup name = some v) :
    D.Holds w v := by
  obtain ⟨l₁, l₂, rfl, -⟩ := List.lookup_eq_some_iff.mp hv
  exact h (name, v) (by simp)

theorem agree_localReference {top : Bool} (hw : D.Good w) (hframe : D.HoldsFrame w c.frame)
    (h : D.Fits w c top (.localRef name)) :
    D.Agree w (Machine.localReference c name) (Machine.localReference c name) D.Holds := by
  unfold Machine.localReference
  cases hlocal : c.frame.lookup name with
  | some v => exact agree_pure hw (holds_lookup hframe hlocal)
  | none =>
    refine agree_look_bind ?_
    cases hdef : Machine.definition? w c.home name with
    | some v => exact agree_pure hw (holds_definition? hw hdef)
    | none => exact agree_raise hw (D.fits_localRef hw h hlocal hdef)

theorem agree_functionReference {f : Function} (hm : D.Machines m m') (hw : D.Good w)
    (hf : w.function? home name = some f) :
    D.Agree w (Machine.functionReference limit m depth home name f)
      (Machine.functionReference limit m' depth home name f) D.Holds := by
  refine agree_ite (fun _ => agree_callFunction hm hw (List.forall_mem_nil _)) fun _ => ?_
  refine (agree_freshId hw).bind fun id w' hnext _ => agree_pure hnext.1 ?_
  exact Value.all_function.mpr (D.sound_later hnext.2 ((D.good_function hw hf).1 id))

theorem agree_freeReference {loc : Location} (hm : D.Machines m m') (hw : D.Good w) :
    D.Agree w (Machine.freeReference limit m c loc name)
      (Machine.freeReference limit m' c loc name) D.Holds := by
  refine agree_look_bind ?_
  cases hdef : Machine.definition? w c.home name with
  | some v => exact agree_pure hw (holds_definition? hw hdef)
  | none =>
    refine agree_look_bind ?_
    cases hf : w.function? c.home name with
    | some f => exact agree_functionReference hm hw hf
    | none =>
      refine agree_look_bind ?_
      cases hmain : w.function? .main name with
      | some f => exact agree_functionReference hm hw hmain
      | none =>
        refine agree_look_bind ?_
        cases hcore : w.definition? .core name with
        | some v => exact agree_pure hw (D.good_definition hw hcore)
        | none => exact agree_raise hw (D.allowed rfl)

theorem agree_callNamed {loc : Location} (hm : D.Machines m m') (hw : D.Good w)
    (hargs : D.HoldsAll w args) :
    D.Agree w (Machine.callNamed limit m depth loc home name args)
      (Machine.callNamed limit m' depth loc home name args) D.Holds := by
  refine agree_look_bind ?_
  cases w.function? home name with
  | some f => exact agree_callFunction hm hw hargs
  | none =>
    refine agree_look_bind ?_
    cases hdef : w.definition? home name with
    | some v => exact agree_callValue hm hw (D.good_definition hw hdef) hargs
    | none => exact agree_raise hw (D.allowed rfl)

theorem agree_callByName {loc : Location} (hm : D.Machines m m') (hw : D.Good w)
    (hargs : D.HoldsAll w args) :
    D.Agree w (Machine.callByName limit m c loc name args)
      (Machine.callByName limit m' c loc name args) D.Holds := by
  refine agree_look_bind ?_
  cases [c.home, .main, .core].find? (Machine.hasCallable w name) with
  | some home => exact agree_callNamed hm hw hargs
  | none => exact agree_raise hw (D.allowed rfl)

theorem agree_callMember {loc : Location} {home member : Bytes} (hm : D.Machines m m')
    (hw : D.Good w) (hargs : D.HoldsAll w args) :
    D.Agree w (Machine.callMember limit m depth loc home member args)
      (Machine.callMember limit m' depth loc home member args) D.Holds := by
  refine agree_ite (fun _ => agree_callNamed hm hw hargs) fun _ => agree_look_bind ?_
  cases w.module? (.named home) with
  | none => exact agree_raise hw (D.allowed rfl)
  | some mod =>
    cases hf : mod.function? member with
    | none =>
      simp only [hf]
      exact agree_raise hw (D.allowed rfl)
    | some f =>
      simp only [hf]
      exact agree_ite (fun _ => agree_callFunction hm hw hargs) fun _ =>
        agree_raise hw (D.allowed rfl)

theorem agree_printed (hw : D.Good w) (s : Bytes) :
    D.Agree w (Machine.printed s) (Machine.printed s) D.Holds :=
  (agree_change (Q := fun _ _ => True) ⟨D.good_print s hw, D.later_print w s⟩ trivial).bind
    fun _ _ hnext _ => agree_pure hnext.1 (Value.all_tag _)

theorem agree_operate {op : Operation} (hw : D.Good w) (hargs : D.HoldsAll w args)
    (h : ∀ n, op.operands? = some n → args.length ≠ n → D.Allowed .malformed) :
    D.Agree w (Machine.operate op args) (Machine.operate op args) D.Holds := by
  unfold Machine.operate
  split
  · exact agree_printed hw _
  · exact agree_printed hw _
  · rename_i hprint hprintln
    by_cases hcount : ∀ n ∈ op.operands?, args.length = n
    · exact agree_ofExcept hw (Machine.computes_compute hprint hprintln hcount hargs) fun _ h => h
    · obtain ⟨n, hn, hne⟩ : ∃ n, op.operands? = some n ∧ args.length ≠ n := by
        simpa using hcount
      rw [Machine.compute_of_operands?_ne hn hne]
      exact agree_raise hw (h n hn hne)

theorem agree_evaluateBranches {loc : Location} {bs : List Branch} (hm : D.Machines m m')
    (hw : D.Good w) (hframe : D.HoldsFrame w c.frame)
    (h : ∀ b ∈ bs, D.Fits w c false b.test ∧ D.Fits w c false b.result) :
    D.Agree w (Machine.evaluateBranches m c loc bs) (Machine.evaluateBranches m' c loc bs)
      D.Holds := by
  induction bs generalizing w with
  | nil => exact agree_raise hw (D.allowed rfl)
  | cons b bs ih =>
    rw [List.forall_mem_cons] at h
    refine (agree_evaluate hm hw hframe h.1.1).bind fun v w' hnext _ => ?_
    have hframe' := hframe.later hnext.2
    refine agree_ite (fun _ => ?_) fun _ => ?_
    · exact agree_evaluate hm hnext.1 hframe' (D.fits_later hnext.2 h.1.2)
    · refine ih hnext.1 hframe' fun b hb => ?_
      exact ⟨D.fits_later hnext.2 (h.2 b hb).1, D.fits_later hnext.2 (h.2 b hb).2⟩

theorem agree_evaluateChoices {loc : Location} {choices : List Choice} (hm : D.Machines m m')
    (hw : D.Good w) (hframe : D.HoldsFrame w c.frame)
    (h : ∀ x ∈ choices, D.Fits w c false x.body) :
    D.Agree w (Machine.evaluateChoices m c loc v choices)
      (Machine.evaluateChoices m' c loc v choices) D.Holds := by
  unfold Machine.evaluateChoices
  cases hfind : choices.find? (Machine.choiceAccepts v) with
  | some x => exact agree_evaluate hm hw hframe (h x (List.mem_of_find?_eq_some hfind))
  | none => exact agree_raise hw (D.allowed rfl)

theorem agree_evaluateLet {top : Bool} {body : Expr} {bs : List Binding} (hm : D.Machines m m')
    (hw : D.Good w) (hframe : D.HoldsFrame w c.frame) (h : D.Fits w c top (.letIn bs body)) :
    D.Agree w (Machine.evaluateLet m body c bs) (Machine.evaluateLet m' body c bs) D.Holds := by
  induction bs generalizing w c top with
  | nil => exact agree_evaluate hm hw hframe (D.fits_letNil h)
  | cons b bs ih =>
    obtain ⟨hvalue, hrest⟩ := D.fits_letCons h
    refine (agree_evaluate hm hw hframe hvalue).bind fun v w' hnext hv => ?_
    exact ih hnext.1 ((hframe.later hnext.2).bindValue hv b.name) (D.fits_later hnext.2 (hrest v))

theorem evaluateBody_cons (m : Machine) (c : Context) (last : Value) {e : Expr} (es : List Expr)
    (h : e.isDefinition = false) :
    Machine.evaluateBody m c last (e :: es) =
      (do Machine.evaluateBody m c (← Machine.evaluate m c e) es) := by
  cases e with
  | define => exact Bool.noConfusion h
  | _ => rfl

theorem agree_evaluateBody {last : Value} {es : List Expr} (hm : D.Machines m m') (hw : D.Good w)
    (hframe : D.HoldsFrame w c.frame) (hlast : D.Holds w last)
    (h : D.Fits w c false (.sequence es)) :
    D.Agree w (Machine.evaluateBody m c last es) (Machine.evaluateBody m' c last es) D.Holds := by
  induction es generalizing w c last with
  | nil => exact agree_pure hw hlast
  | cons e es ih =>
    obtain ⟨hfirst, hrest⟩ := D.fits_bodyCons h
    -- A definition is not evaluated as such here: its value goes into the frame.
    by_cases hdef : e.isDefinition = true
    · cases e with
      | define name x =>
        have hx := D.fits_parts hfirst (x := x) (by simp [Expr.parts])
        refine (agree_evaluate hm hw hframe hx).bind fun v w' hnext hv => ?_
        exact ih hnext.1 ((hframe.later hnext.2).bindValue hv name) hv
          (D.fits_later hnext.2 (D.fits_bodyDefine h v))
      | _ => simp [Expr.isDefinition] at hdef
    · rw [Bool.not_eq_true] at hdef
      rw [evaluateBody_cons m c last es hdef, evaluateBody_cons m' c last es hdef]
      refine (agree_evaluate hm hw hframe hfirst).bind fun v w' hnext hv => ?_
      exact ih hnext.1 (hframe.later hnext.2) hv (D.fits_later hnext.2 (hrest hdef))

theorem agree_evaluateTop {last : Value} {es : List Expr} (hm : D.Machines m m') (hw : D.Good w)
    (hframe : D.HoldsFrame w c.frame) (hlast : D.Holds w last)
    (h : D.Fits w c true (.sequence es)) :
    D.Agree w (Machine.evaluateTop m c last es) (Machine.evaluateTop m' c last es) D.Holds := by
  induction es generalizing w last with
  | nil => exact agree_pure hw hlast
  | cons e es ih =>
    obtain ⟨hfirst, hrest⟩ := D.fits_topCons h
    refine (hm w (.evaluate c true e) hw ⟨hframe, hfirst⟩).bind fun v w' hnext hv => ?_
    exact ih hnext.1 (hframe.later hnext.2) hv.1 (hrest hnext.2 (hv.2 c e rfl))

theorem agree_evaluateElements {es : List Element} (hm : D.Machines m m') (hw : D.Good w)
    (hframe : D.HoldsFrame w c.frame) (h : ∀ e ∈ es, D.Fits w c false e.value) :
    D.Agree w (Machine.evaluateElements m c es) (Machine.evaluateElements m' c es) D.HoldsAll := by
  induction es generalizing w with
  | nil => exact agree_pure hw (List.forall_mem_nil _)
  | cons e es ih =>
    rw [List.forall_mem_cons] at h
    refine (agree_evaluate hm hw hframe h.1).bind fun v w' hnext hv => ?_
    have hrest : ∀ vs w'', D.Next w' w'' → D.HoldsAll w'' vs →
        D.Agree w'' (do return vs ++ (← Machine.evaluateElements m c es))
          (do return vs ++ (← Machine.evaluateElements m' c es)) D.HoldsAll := by
      intro vs w'' hnext' hvs
      have hlater := D.later_trans hnext.2 hnext'.2
      refine (ih hnext'.1 (hframe.later hlater) fun x hx => D.fits_later hlater (h.2 x hx)).bind
        fun us u hnext'' hus => agree_pure hnext''.1 ?_
      exact List.forall_mem_append.mpr ⟨hvs.later hnext''.2, hus⟩
    refine agree_ite (fun _ => ?_) fun _ => ?_
    · exact (agree_ofExcept (Q := D.HoldsAll) hnext.1 (Value.computes_expectList hv)
        fun _ h => h).bind hrest
    · exact (agree_pure (Q := D.HoldsAll) hnext.1 (Contract.holdsAll_singleton hv)).bind hrest

theorem agree_define {top : Bool} (hm : D.Machines m m') (hw : D.Good w)
    (hframe : D.HoldsFrame w c.frame) (h : D.Fits w c top (.define name e)) :
    D.Agree w (Machine.evaluateStep limit m c top (.define name e))
      (Machine.evaluateStep limit m' c top (.define name e))
      (D.Gives (.evaluate c top (.define name e))) := by
  have hvalue := D.fits_parts h (x := e) (by simp [Expr.parts])
  refine (agree_evaluate hm hw hframe hvalue).bind fun v w' hnext hv => ?_
  cases top with
  | false => exact agree_pure hnext.1 ⟨hv, by simp⟩
  | true =>
    obtain ⟨hdefined, hleaves⟩ := D.define hnext.1 (D.fits_later hnext.2 h) hv
    refine (agree_change (Q := fun w _ => D.Gives (.evaluate c true (.define name e)) w v)
      hdefined ⟨?_, ?_⟩).bind fun _ _ hnext' hgives => agree_pure hnext'.1 hgives
    · exact hv.later hdefined.2
    · rintro _ _ ⟨⟩
      exact hleaves

theorem agree_evaluateStep {top : Bool} (hm : D.Machines m m') (hw : D.Good w)
    (hframe : D.HoldsFrame w c.frame) (h : D.Fits w c top e) :
    D.Agree w (Machine.evaluateStep limit m c top e) (Machine.evaluateStep limit m' c top e)
      (D.Gives (.evaluate c top e)) := by
  by_cases hdef : e.isDefinition = true
  · cases e with
    | define name e => exact agree_define hm hw hframe h
    | _ => simp [Expr.isDefinition] at hdef
  rw [Bool.not_eq_true] at hdef
  suffices hholds : D.Agree w (Machine.evaluateStep limit m c top e)
      (Machine.evaluateStep limit m' c top e) D.Holds by
    refine hholds.weaken fun v w' _ hv => ⟨hv, ?_⟩
    rintro _ _ ⟨⟩
    exact D.leaves hdef
  have hparts : ∀ x ∈ e.parts, D.Fits w c false x := fun x => D.fits_parts h
  cases e with
  | literal d => exact agree_pure hw (Datum.all_toValue _ d)
  | localRef name => exact agree_localReference hw hframe h
  | freeRef loc name => exact agree_freeReference hm hw
  | call loc name args =>
    exact (agree_evaluateAll hm hw hframe hparts).bind fun vs w' hnext hvs =>
      agree_callByName hm hnext.1 hvs.2
  | memberCall loc home member args =>
    exact (agree_evaluateAll hm hw hframe hparts).bind fun vs w' hnext hvs =>
      agree_callMember hm hnext.1 hvs.2
  | apply loc target args =>
    rw [Expr.parts, List.forall_mem_cons] at hparts
    refine (agree_evaluate hm hw hframe hparts.1).bind fun v w' hnext hv => ?_
    refine (agree_evaluateAll hm hnext.1 (hframe.later hnext.2) fun x hx =>
      D.fits_later hnext.2 (hparts.2 x hx)).bind fun vs w'' hnext' hvs => ?_
    exact agree_callValue hm hnext'.1 (hv.later hnext'.2) hvs.2
  | operation loc op operands =>
    refine (agree_evaluateAll hm hw hframe hparts).bind fun vs w' hnext hvs => ?_
    exact agree_operate hnext.1 hvs.2 fun n hn hne => D.fits_operation h hn (hvs.1 ▸ hne)
  | and left right =>
    refine (agree_evaluate hm hw hframe (hparts left (by simp [Expr.parts]))).bind
      fun v w' hnext hv => agree_ite (fun _ => ?_) fun _ => agree_pure hnext.1 hv
    exact agree_evaluate hm hnext.1 (hframe.later hnext.2)
      (D.fits_later hnext.2 (hparts right (by simp [Expr.parts])))
  | or left right =>
    refine (agree_evaluate hm hw hframe (hparts left (by simp [Expr.parts]))).bind
      fun v w' hnext hv => agree_ite (fun _ => agree_pure hnext.1 hv) fun _ => ?_
    exact agree_evaluate hm hnext.1 (hframe.later hnext.2)
      (D.fits_later hnext.2 (hparts right (by simp [Expr.parts])))
  | ifThenElse test yes no =>
    refine (agree_evaluate hm hw hframe (hparts test (by simp [Expr.parts]))).bind
      fun v w' hnext hv => agree_ite (fun _ => ?_) fun _ => ?_
    · exact agree_evaluate hm hnext.1 (hframe.later hnext.2)
        (D.fits_later hnext.2 (hparts yes (by simp [Expr.parts])))
    · exact agree_evaluate hm hnext.1 (hframe.later hnext.2)
        (D.fits_later hnext.2 (hparts no (by simp [Expr.parts])))
  | cond loc branches =>
    refine agree_evaluateBranches hm hw hframe fun b hb => ?_
    exact ⟨hparts b.test (List.mem_flatMap.mpr ⟨b, hb, by simp⟩),
      hparts b.result (List.mem_flatMap.mpr ⟨b, hb, by simp⟩)⟩
  | caseOf loc scrutinee choices =>
    rw [Expr.parts, List.forall_mem_cons] at hparts
    refine (agree_evaluate hm hw hframe hparts.1).bind fun v w' hnext _ => ?_
    refine agree_evaluateChoices hm hnext.1 (hframe.later hnext.2) fun x hx => ?_
    exact D.fits_later hnext.2 (hparts.2 x.body (List.mem_map_of_mem hx))
  | letIn bindings body => exact agree_evaluateLet hm hw hframe h
  | lambda clause =>
    refine (agree_freshId hw).bind fun id w' hnext _ => agree_pure hnext.1 ?_
    exact Value.all_closure.mpr
      ⟨D.sound_later hnext.2 (D.fits_lambda h id), hframe.later hnext.2⟩
  | defineFunction name exported clauses =>
    obtain ⟨hdefined, hsound⟩ := D.defineFunction hw h
    refine (agree_change (Q := fun w _ => ∀ id, D.Sound w (.function id c.home name))
      hdefined hsound).bind fun _ w' hnext hsound => ?_
    refine (agree_freshId hnext.1).bind fun id w'' hnext' _ => agree_pure hnext'.1 ?_
    exact Value.all_function.mpr (D.sound_later hnext'.2 (hsound id))
  | define name e => simp [Expr.isDefinition] at hdef
  | sequence es =>
    cases top with
    | false => exact agree_evaluateBody hm hw hframe Value.all_nil h
    | true => exact agree_evaluateTop hm hw hframe Value.all_nil h
  | attempt body =>
    refine (agree_evaluate hm hw hframe (hparts body (by simp [Expr.parts]))).catching hw
      fun f w' hnext _ => agree_pure hnext.1 ?_
    exact Value.all_tuple.mpr (by simp)
  | makeList elements =>
    refine (agree_evaluateElements hm hw hframe fun x hx => ?_).bind fun vs w' hnext hvs =>
      agree_pure hnext.1 (Value.all_list.mpr hvs)
    exact hparts x.value (List.mem_map_of_mem hx)
  | makeTuple elements =>
    exact (agree_evaluateAll hm hw hframe hparts).bind fun vs w' hnext hvs =>
      agree_pure hnext.1 (Value.all_tuple.mpr hvs.2)
  | defineModule name es =>
    obtain ⟨hmade, hfits⟩ := D.defineModule hw h
    refine (agree_change (Q := fun w _ => D.Fits w ⟨.named name, [], c.depth⟩ true (.sequence es))
      hmade hfits).bind fun _ w' hnext hfits => ?_
    have hempty : D.HoldsFrame w' [] := List.forall_mem_nil _
    exact (agree_evaluateTop hm hnext.1 hempty Value.all_nil hfits).bind
      fun _ _ hnext' _ => agree_pure hnext'.1 (Value.all_tag _)

theorem agree_step {task : Task} (hm : D.Machines m m') (hw : D.Good w)
    (h : D.Accepts w task) :
    D.Agree w (Machine.step limit m task) (Machine.step limit m' task) (D.Gives task) := by
  cases task with
  | evaluate c top e => exact agree_evaluateStep hm hw h.1 h.2
  | call depth p args =>
    exact (agree_callProcedure hm hw h.1 h.2).weaken fun _ _ _ hv => ⟨hv, by simp⟩
  | select depth callee args index =>
    exact (agree_selectStep hm hw h.1 h.2).weaken fun _ _ _ hv => ⟨hv, by simp⟩

theorem machines_perform (D : Discipline) (limit fuel : Nat) :
    D.Machines (Machine.perform limit fuel) (Machine.perform limit fuel) := by
  induction fuel with
  | zero => exact fun _ _ hw _ => Contract.agree_exhaust hw
  | succ fuel ih => exact fun _ _ hw htask => agree_step ih hw htask

end Step

end Discipline
end ClauseLisp
