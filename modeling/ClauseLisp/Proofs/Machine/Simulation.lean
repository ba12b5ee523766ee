import ClauseLisp.Proofs.Run.Simulation

/-! Machines that perform tasks alike. Where one machine simulates another on tasks that are resolved
alike, so do all parts of a step that are written over the machines. -/

namespace ClauseLisp

namespace Expr

theorem resolveAll_eq_map (r : Resolver) (home : Home) (top : Bool) (hidden : List Bytes)
    (es : List Expr) : resolveAll r home top hidden es = es.map (resolve r home top hidden) := by
  induction es with
  | nil => rfl
  | cons e es ih => rw [resolveAll, ih, List.map_cons]

theorem resolveClauses_eq_map (r : Resolver) (home : Home) (hidden : List Bytes)
    (cs : List Clause) : resolveClauses r home hidden cs = cs.map (resolveClause r home hidden) := by
  induction cs with
  | nil => rfl
  | cons c cs ih => rw [resolveClauses, ih, List.map_cons]

theorem bound_resolve (r : Resolver) (home : Home) (top : Bool) (hidden : List Bytes) (e : Expr) :
    (resolve r home top hidden e).bound = e.bound := by
  cases e with
  | freeRef | call | sequence =>
    rw [resolve]
    split <;> rfl
  | _ => simp only [resolve, bound]

end Expr

namespace Resolver

variable (r : Resolver)

structure ContextAlike (c c' : Context) : Prop where
  home : c.home = c'.home
  frame : r.frame c.frame = r.frame c'.frame
  depth : c.depth = c'.depth

def ExprAlike (c : Context) (top : Bool) (e e' : Expr) : Prop :=
  Expr.resolve r c.home top (c.frame.map Prod.fst) e =
    Expr.resolve r c.home top (c.frame.map Prod.fst) e'

structure CalleeAlike (callee callee' : Callee) : Prop where
  home : callee.home = callee'.home
  name : callee.name = callee'.name
  frame : r.frame callee.frame = r.frame callee'.frame
  clauses : ∀ {w w'}, r.world w = r.world w' →
    (callee.clauses w).map (Expr.resolveClause r callee.home (callee.frame.map Prod.fst)) =
      (callee'.clauses w').map (Expr.resolveClause r callee.home (callee.frame.map Prod.fst))

inductive TaskAlike : Task → Task → Prop
  | evaluate {c c' top e e'} (hc : r.ContextAlike c c') (he : r.ExprAlike c top e e') :
    TaskAlike (.evaluate c top e) (.evaluate c' top e')
  | call {depth p p' args args'} (hp : Procedure.resolve r p = Procedure.resolve r p')
    (hargs : args.map r.value = args'.map r.value) :
    TaskAlike (.call depth p args) (.call depth p' args')
  | select {depth callee callee' args args' index} (hcallee : r.CalleeAlike callee callee')
    (hargs : args.map r.value = args'.map r.value) :
    TaskAlike (.select depth callee args index) (.select depth callee' args' index)

end Resolver

def Task.Quiet : Task → Prop
  | .evaluate c top _ => top = true → c.home ≠ .main
  | _ => True

def Resolver.Machines (r : Resolver) (m m' : Machine) : Prop :=
  ∀ {task task'}, r.TaskAlike task task' → r.Simulates task.Quiet r.value (m task) (m' task')

namespace Resolver

variable {r : Resolver} {c c' : Context} {w w' : World}

theorem names_alike {frame frame' : ValueFrame} (h : r.frame frame = r.frame frame') :
    frame.map Prod.fst = frame'.map Prod.fst := by
  have hnames : ∀ f : ValueFrame, (r.frame f).map Prod.fst = f.map Prod.fst :=
    fun f => by simp [Resolver.frame, ValueFrame.replace, Function.comp_def]
  rw [← hnames frame, h, hnames]

theorem ContextAlike.refl (c : Context) : r.ContextAlike c c := ⟨rfl, rfl, rfl⟩

theorem ContextAlike.bindValue (hc : r.ContextAlike c c') (name : Bytes) {v v' : Value}
    (hv : r.value v = r.value v') :
    r.ContextAlike (Machine.bindValue c name v) (Machine.bindValue c' name v') where
  home := hc.home
  frame := congrArg₂ List.cons (congrArg (Prod.mk name) hv) hc.frame
  depth := hc.depth

theorem calleeAlike_lambda (home : Home) (name : Bytes) {clause clause' : Clause}
    {frame frame' : ValueFrame} (hframe : r.frame frame = r.frame frame')
    (hclause : Expr.resolveClause r home (frame.map Prod.fst) clause =
      Expr.resolveClause r home (frame.map Prod.fst) clause') :
    r.CalleeAlike ⟨home, name, some clause, frame⟩ ⟨home, name, some clause', frame'⟩ where
  home := rfl
  name := rfl
  frame := hframe
  clauses _ := congrArg (fun c => [c]) hclause

theorem calleeAlike_function (home : Home) (name : Bytes) :
    r.CalleeAlike (.function home name) (.function home name) where
  home := rfl
  name := rfl
  frame := rfl
  clauses {w w'} hw := by
    have hsame := function?_alike hw home name
    have hclauses : ∀ f? : Option Function,
        ((f?.map (·.clauses)).getD []).map (Expr.resolveClause r home []) =
          ((f?.map (r.function home)).map (·.clauses)).getD [] := by
      intro f?
      cases f? <;> rfl
    exact (hclauses _).trans (hsame ▸ (hclauses _).symm)

theorem definition?_machine_alike (hw : r.world w = r.world w') (home : Home) (name : Bytes) :
    (Machine.definition? w home name).map r.value = (Machine.definition? w' home name).map r.value := by
  unfold Machine.definition?
  rw [Option.map_or, Option.map_or, definition?_alike hw, definition?_alike hw]

theorem hasCallable_alike (hw : r.world w = r.world w') (name : Bytes) (home : Home) :
    Machine.hasCallable w name home = Machine.hasCallable w' name home := by
  have hfunction := congrArg Option.isSome (function?_alike hw home name)
  have hdefinition := congrArg Option.isSome (definition?_alike hw home name)
  rw [Option.isSome_map, Option.isSome_map] at hfunction hdefinition
  unfold Machine.hasCallable
  rw [hfunction, hdefinition]

section Parts

variable {m m' : Machine} (hm : r.Machines m m') {quiet : Prop}

include hm

theorem simulates_evaluate {e e' : Expr} (hc : r.ContextAlike c c')
    (he : r.ExprAlike c false e e') :
    r.Simulates quiet r.value (Machine.evaluate m c e) (Machine.evaluate m' c' e') :=
  (hm (.evaluate hc he)).mono fun _ h => Bool.noConfusion h

theorem simulates_evaluateAll {es es' : List Expr} (hc : r.ContextAlike c c')
    (hes : Expr.resolveAll r c.home false (c.frame.map Prod.fst) es =
      Expr.resolveAll r c.home false (c.frame.map Prod.fst) es') :
    r.Simulates quiet (List.map r.value) (Machine.evaluateAll m c es)
      (Machine.evaluateAll m' c' es') := by
  rw [Expr.resolveAll_eq_map, Expr.resolveAll_eq_map] at hes
  exact simulates_forEach (fun e e' he => simulates_evaluate hm hc he) hes

theorem simulates_call (depth : Nat) {p p' : Procedure} {args args' : List Value}
    (hp : Procedure.resolve r p = Procedure.resolve r p')
    (hargs : args.map r.value = args'.map r.value) :
    r.Simulates quiet r.value (m (.call depth p args)) (m' (.call depth p' args')) :=
  (hm (.call hp hargs)).mono fun _ => trivial

theorem simulates_callValue (depth : Nat) {v v' : Value} {args args' : List Value}
    (hv : r.value v = r.value v') (hargs : args.map r.value = args'.map r.value) :
    r.Simulates quiet r.value (Machine.callValue m depth v args)
      (Machine.callValue m' depth v' args') :=
  (simulates_ofExcept (replaced_congr Value.expectProcedure_replace hv)).bind fun _ _ hp =>
    simulates_call hm depth hp hargs

theorem simulates_guardHolds {g g' : Expr} (hc : r.ContextAlike c c')
    (hg : r.ExprAlike c false g g') :
    r.Simulates quiet id (Machine.guardHolds m c g) (Machine.guardHolds m' c' g') := by
  refine Simulates.catching ?_ fun f f' hf => ?_
  · exact (simulates_evaluate hm hc hg).bind fun v v' hv => simulates_pure (truthy_alike hv)
  · have hsame := congrArg Fault.isTypeFault hf
    rw [Fault.isTypeFault_replace, Fault.isTypeFault_replace] at hsame
    exact simulates_ite (by rw [hsame]) (simulates_pure rfl) (simulates_raise hf)

theorem simulates_guardsHold {gs gs' : List Expr} (hc : r.ContextAlike c c')
    (hgs : gs.map (Expr.resolve r c.home false (c.frame.map Prod.fst)) =
      gs'.map (Expr.resolve r c.home false (c.frame.map Prod.fst))) :
    r.Simulates quiet id (Machine.guardsHold m c gs) (Machine.guardsHold m' c' gs') := by
  induction gs generalizing gs' with
  | nil =>
    obtain rfl := List.map_eq_nil_iff.mp hgs.symm
    exact simulates_pure rfl
  | cons g gs ih =>
    obtain ⟨g', gs', rfl, hg, hgs⟩ := List.map_eq_cons_iff.mp hgs.symm
    refine (simulates_guardHolds hm hc hg.symm).bind ?_
    rintro b _ rfl
    exact simulates_ite Iff.rfl (ih hgs.symm) (simulates_pure rfl)

theorem simulates_next (depth : Nat) {callee callee' : Callee} {args args' : List Value}
    (index : Nat) (hcallee : r.CalleeAlike callee callee')
    (hargs : args.map r.value = args'.map r.value) :
    r.Simulates quiet r.value (m (.select depth callee args index))
      (m' (.select depth callee' args' index)) :=
  (hm (.select hcallee hargs)).mono fun _ => trivial

theorem simulates_enter {callee callee' : Callee} {clause clause' : Clause}
    {args : List Value} {frame frame' : ValueFrame} {other other' : Run Value} (depth : Nat)
    (hcallee : r.CalleeAlike callee callee')
    (hclause : Expr.resolveClause r callee.home (callee.frame.map Prod.fst) clause =
      Expr.resolveClause r callee.home (callee.frame.map Prod.fst) clause')
    (hmatch : Pattern.matchAll? clause.parameters args callee.frame = some frame)
    (hframe : r.frame frame = r.frame frame')
    (hother : r.Simulates quiet r.value other other') :
    r.Simulates quiet r.value
      (do if ← Machine.guardsHold m ⟨callee.home, frame, depth⟩ clause.guards then
            Machine.evaluate m ⟨callee.home, frame, depth⟩ clause.body
          else other)
      (do if ← Machine.guardsHold m' ⟨callee'.home, frame', depth⟩ clause'.guards then
            Machine.evaluate m' ⟨callee'.home, frame', depth⟩ clause'.body
          else other') := by
  obtain ⟨loc, ps, guards, body⟩ := clause
  obtain ⟨loc', ps', guards', body'⟩ := clause'
  rw [Expr.resolveClause, Expr.resolveClause, Clause.mk.injEq] at hclause
  obtain ⟨-, rfl, hguards, hbody⟩ := hclause
  obtain ⟨bs, rfl, hnames, -⟩ := Pattern.extends_of_matchAll? hmatch
  have hhidden : (bs.reverse ++ callee.frame).map Prod.fst =
      Expr.hideParameters (callee.frame.map Prod.fst) ps := by
    rw [List.map_append, List.map_reverse, hnames, Expr.hideParameters]
  have hc : r.ContextAlike ⟨callee.home, bs.reverse ++ callee.frame, depth⟩
      ⟨callee'.home, frame', depth⟩ := ⟨hcallee.home, hframe, rfl⟩
  rw [← hhidden, Expr.resolveAll_eq_map, Expr.resolveAll_eq_map] at hguards
  rw [← hhidden] at hbody
  refine (simulates_guardsHold hm hc hguards).bind ?_
  rintro b _ rfl
  exact simulates_ite Iff.rfl (simulates_evaluate hm hc hbody) hother

theorem simulates_select (depth : Nat) {callee callee' : Callee} {args args' : List Value}
    (index : Nat) (hcallee : r.CalleeAlike callee callee')
    (hargs : args.map r.value = args'.map r.value) :
    r.Simulates quiet r.value (Machine.select m depth callee args index)
      (Machine.select m' depth callee' args' index) := by
  have hnext : r.Simulates quiet r.value (m (.select depth callee args (index + 1)))
      (m' (.select depth callee' args' (index + 1))) :=
    simulates_next hm depth (index + 1) hcallee hargs
  have hlook : r.Simulates quiet
      (Option.map (Expr.resolveClause r callee.home (callee.frame.map Prod.fst)))
      (Run.look fun w => (callee.clauses w)[index]?)
      (Run.look fun w => (callee'.clauses w)[index]?) := by
    refine simulates_look fun w w' hw => ?_
    rw [← List.getElem?_map, hcallee.clauses hw, List.getElem?_map]
  refine hlook.bind fun clause? clause?' hclause => ?_
  match clause?, clause?' with
  | none, none =>
    refine simulates_raise ?_
    simp only [Fault.replace, hcallee.name]
    exact congrArg _ hargs
  | some clause, some clause' =>
    have hclause := Option.some.inj hclause
    have hps : clause.parameters = clause'.parameters := by
      obtain ⟨loc, ps, guards, body⟩ := clause
      obtain ⟨loc', ps', guards', body'⟩ := clause'
      rw [Expr.resolveClause, Expr.resolveClause, Clause.mk.injEq] at hclause
      exact hclause.2.1
    have hf := Procedure.faithful_resolve r
    have hmatched : (Pattern.matchAll? clause.parameters args callee.frame).map r.frame =
        (Pattern.matchAll? clause'.parameters args' callee'.frame).map r.frame := by
      rw [← Pattern.matchAll?_replace hf, ← Pattern.matchAll?_replace hf, hps]
      exact congrArg₂ _ hargs hcallee.frame
    cases hmatch : Pattern.matchAll? clause.parameters args callee.frame with
    | none =>
      rw [hmatch] at hmatched
      have hmatch' := Option.map_eq_none_iff.mp hmatched.symm
      simp only [hmatch, hmatch']
      exact hnext
    | some frame =>
      rw [hmatch] at hmatched
      obtain ⟨frame', hmatch', hframe⟩ := Option.map_eq_some_iff.mp hmatched.symm
      simp only [hmatch, hmatch']
      exact simulates_enter hm depth hcallee hclause hmatch hframe.symm hnext

theorem simulates_evaluateBranches (loc : Location) {bs bs' : List Branch}
    (hc : r.ContextAlike c c')
    (hbs : Expr.resolveBranches r c.home (c.frame.map Prod.fst) bs =
      Expr.resolveBranches r c.home (c.frame.map Prod.fst) bs') :
    r.Simulates quiet r.value (Machine.evaluateBranches m c loc bs)
      (Machine.evaluateBranches m' c' loc bs') := by
  induction bs generalizing bs' with
  | nil =>
    match bs' with
    | [] => exact simulates_raise rfl
    | ⟨_, _⟩ :: _ => exact nomatch hbs
  | cons b bs ih =>
    match b, bs' with
    | ⟨_, _⟩, [] => exact nomatch hbs
    | ⟨test, result⟩, ⟨test', result'⟩ :: bs' =>
      obtain ⟨hb, hrest⟩ := List.cons.inj hbs
      obtain ⟨htest, hresult⟩ := Branch.mk.inj hb
      refine (simulates_evaluate hm hc htest).bind fun v v' hv => ?_
      exact simulates_ite (by rw [truthy_alike hv]) (simulates_evaluate hm hc hresult) (ih hrest)

omit hm in
theorem choiceAccepts_alike {v v' : Value} (hv : r.value v = r.value v') (datum : Option Datum)
    (body body' : Expr) :
    Machine.choiceAccepts v ⟨datum, body⟩ = Machine.choiceAccepts v' ⟨datum, body'⟩ := by
  -- Which choice is taken is a matter of the data, and data hold no procedures.
  have hequal : ∀ d : Datum, d.toValue.equal v = d.toValue.equal v' := by
    intro d
    have hf := Procedure.faithful_resolve r
    rw [← Value.equal_replace hf, ← Value.equal_replace hf d.toValue v']
    exact congrArg _ hv
  cases datum with
  | none => rfl
  | some d => exact hequal d

theorem simulates_evaluateChoices (loc : Location) {v v' : Value} {cs cs' : List Choice}
    (hc : r.ContextAlike c c') (hv : r.value v = r.value v')
    (hcs : Expr.resolveChoices r c.home (c.frame.map Prod.fst) cs =
      Expr.resolveChoices r c.home (c.frame.map Prod.fst) cs') :
    r.Simulates quiet r.value (Machine.evaluateChoices m c loc v cs)
      (Machine.evaluateChoices m' c' loc v' cs') := by
  unfold Machine.evaluateChoices
  induction cs generalizing cs' with
  | nil =>
    match cs' with
    | [] => exact simulates_raise (congrArg (Fault.noChoice loc) hv)
    | ⟨_, _⟩ :: _ => exact nomatch hcs
  | cons choice cs ih =>
    match choice, cs' with
    | ⟨_, _⟩, [] => exact nomatch hcs
    | ⟨datum, body⟩, ⟨datum', body'⟩ :: cs' =>
      obtain ⟨hchoice, hrest⟩ := List.cons.inj hcs
      obtain ⟨rfl, hbody⟩ := Choice.mk.inj hchoice
      have haccepts := choiceAccepts_alike hv datum body body'
      rw [List.find?_cons, List.find?_cons, haccepts]
      cases Machine.choiceAccepts v' ⟨datum, body'⟩ with
      | true => exact simulates_evaluate hm hc hbody
      | false => exact ih hrest

theorem simulates_evaluateLet {bs bs' : List Binding} {body body' : Expr}
    (hc : r.ContextAlike c c')
    (hbs : Expr.resolveBindings r c.home (c.frame.map Prod.fst) bs =
      Expr.resolveBindings r c.home (c.frame.map Prod.fst) bs')
    (hbody : Expr.resolve r c.home false (Expr.hideBindings (c.frame.map Prod.fst) bs) body =
      Expr.resolve r c.home false (Expr.hideBindings (c.frame.map Prod.fst) bs') body') :
    r.Simulates quiet r.value (Machine.evaluateLet m body c bs)
      (Machine.evaluateLet m' body' c' bs') := by
  induction bs generalizing bs' c c' with
  | nil =>
    match bs' with
    | [] => exact simulates_evaluate hm hc hbody
    | ⟨_, _⟩ :: _ => exact nomatch hbs
  | cons b bs ih =>
    match b, bs' with
    | ⟨_, _⟩, [] => exact nomatch hbs
    | ⟨name, value⟩, ⟨name', value'⟩ :: bs' =>
      obtain ⟨hb, hrest⟩ := List.cons.inj hbs
      obtain ⟨rfl, hvalue⟩ := Binding.mk.inj hb
      refine (simulates_evaluate hm hc hvalue).bind fun v v' hv => ?_
      exact ih (hc.bindValue name hv) hrest hbody

theorem simulates_evaluateBody {last last' : Value} {es es' : List Expr}
    (hc : r.ContextAlike c c') (hlast : r.value last = r.value last')
    (hes : Expr.resolveBody r c.home (c.frame.map Prod.fst) es =
      Expr.resolveBody r c.home (c.frame.map Prod.fst) es') :
    r.Simulates quiet r.value (Machine.evaluateBody m c last es)
      (Machine.evaluateBody m' c' last' es') := by
  induction es generalizing es' c c' last last' with
  | nil =>
    match es' with
    | [] => exact simulates_pure hlast
    | _ :: _ => exact nomatch hes
  | cons e es ih =>
    match es' with
    | [] => exact nomatch hes
    | e' :: es' =>
      obtain ⟨he, hrest⟩ := List.cons.inj hes
      have hbound : e'.bound = e.bound := by
        rw [← Expr.bound_resolve r c.home false (c.frame.map Prod.fst) e', ← he,
          Expr.bound_resolve]
      rw [hbound] at hrest
      -- A definition goes on in a frame with its name, everything else in the same one.
      by_cases hdef : e.isDefinition = true
      · cases e with
        | define name value =>
          cases e' with
          | define name' value' =>
            obtain ⟨rfl, hvalue⟩ := Expr.define.inj he
            refine (simulates_evaluate hm hc hvalue).bind fun v v' hv => ?_
            exact ih (hc.bindValue name hv) hv hrest
          | _ => exact nomatch hbound
        | _ => exact Bool.noConfusion hdef
      · have hnone : ∀ e : Expr, e.isDefinition = false ↔ e.bound = [] := by
          intro e
          cases e <;> simp [Expr.isDefinition, Expr.bound]
        rw [Bool.not_eq_true] at hdef
        have hempty := (hnone e).mp hdef
        have hdef' := (hnone e').mpr (hbound.trans hempty)
        rw [hempty] at hrest
        rw [Discipline.evaluateBody_cons m c last es hdef,
          Discipline.evaluateBody_cons m' c' last' es' hdef']
        exact (simulates_evaluate hm hc he).bind fun v v' hv => ih hc hv hrest

theorem simulates_evaluateTop {last last' : Value} {es es' : List Expr}
    (hquiet : quiet → c.home ≠ .main) (hc : r.ContextAlike c c')
    (hlast : r.value last = r.value last')
    (hes : Expr.resolveAll r c.home true (c.frame.map Prod.fst) es =
      Expr.resolveAll r c.home true (c.frame.map Prod.fst) es') :
    r.Simulates quiet r.value (Machine.evaluateTop m c last es)
      (Machine.evaluateTop m' c' last' es') := by
  induction es generalizing es' last last' with
  | nil =>
    match es' with
    | [] => exact simulates_pure hlast
    | _ :: _ => exact nomatch hes
  | cons e es ih =>
    match es' with
    | [] => exact nomatch hes
    | e' :: es' =>
      obtain ⟨he, hrest⟩ := List.cons.inj hes
      have hfirst := (hm (.evaluate hc he)).mono fun hq _ => hquiet hq
      exact hfirst.bind fun v v' hv => ih hv hrest

theorem simulates_evaluateElements {es es' : List Element} (hc : r.ContextAlike c c')
    (hes : Expr.resolveElements r c.home (c.frame.map Prod.fst) es =
      Expr.resolveElements r c.home (c.frame.map Prod.fst) es') :
    r.Simulates quiet (List.map r.value) (Machine.evaluateElements m c es)
      (Machine.evaluateElements m' c' es') := by
  induction es generalizing es' with
  | nil =>
    match es' with
    | [] => exact simulates_pure rfl
    | ⟨_, _⟩ :: _ => exact nomatch hes
  | cons e es ih =>
    match e, es' with
    | ⟨_, _⟩, [] => exact nomatch hes
    | ⟨spliced, value⟩, ⟨spliced', value'⟩ :: es' =>
      obtain ⟨he, hrest⟩ := List.cons.inj hes
      obtain ⟨rfl, hvalue⟩ := Element.mk.inj he
      have happend : ∀ us us' : List Value, us.map r.value = us'.map r.value →
          r.Simulates quiet (List.map r.value)
            (do return us ++ (← Machine.evaluateElements m c es))
            (do return us' ++ (← Machine.evaluateElements m' c' es')) :=
        fun us us' hus => (ih hrest).bind fun vs vs' hvs =>
          simulates_pure (by rw [List.map_append, hus, hvs, List.map_append])
      refine (simulates_evaluate hm hc hvalue).bind fun v v' hv => ?_
      cases spliced with
      | true => exact (simulates_ofExcept (replaced_congr Value.expectList_replace hv)).bind happend
      | false => exact happend [v] [v'] (congrArg (fun u => [u]) hv)

end Parts

section Calls

variable {m m' : Machine} (hm : r.Machines m m') {quiet : Prop} (limit depth : Nat)

theorem later_print (w : World) (s : Bytes) : World.Later quiet w (w.print s) :=
  ⟨World.grows_of_module? (w.module?_print s) (List.prefix_append _ _), fun _ => rfl⟩

theorem simulates_printed (s : Bytes) :
    r.Simulates quiet r.value (Machine.printed s) (Machine.printed s) := by
  have hprint : r.Simulates quiet id (Run.change (·.print s)) (Run.change (·.print s)) :=
    simulates_change (later_print · s) fun w w' hw => congrArg (World.print · s) hw
  exact hprint.bind fun _ _ _ => simulates_pure rfl

theorem simulates_operate (op : Operation) {args args' : List Value}
    (hargs : args.map r.value = args'.map r.value) :
    r.Simulates quiet r.value (Machine.operate op args) (Machine.operate op args') := by
  have hf := Procedure.faithful_resolve r
  have hjoined : ∀ s, Machine.joinDisplays s args = Machine.joinDisplays s args' := by
    intro s
    rw [← Machine.joinDisplays_replace hf s args, ← Machine.joinDisplays_replace hf s args']
    exact congrArg _ hargs
  have hcompute : r.Simulates quiet r.value (.ofExcept (Machine.compute op args))
      (.ofExcept (Machine.compute op args')) :=
    simulates_ofExcept (replaced_congr (Machine.compute_replace hf op) hargs)
  cases op with
  | print =>
    unfold Machine.operate
    rw [hjoined]
    exact simulates_printed _
  | println =>
    unfold Machine.operate
    rw [hjoined]
    exact simulates_printed _
  | _ => exact hcompute

include hm

theorem simulates_invoke {callee callee' : Callee} {args args' : List Value}
    (hcallee : r.CalleeAlike callee callee') (hargs : args.map r.value = args'.map r.value) :
    r.Simulates quiet r.value (Machine.invoke limit m depth callee args)
      (Machine.invoke limit m' depth callee' args') :=
  simulates_ite Iff.rfl (simulates_raise rfl) (simulates_next hm (depth + 1) 0 hcallee hargs)

theorem simulates_callFunction (home : Home) (name : Bytes) {args args' : List Value}
    (hargs : args.map r.value = args'.map r.value) :
    r.Simulates quiet r.value (Machine.callFunction limit m depth home name args)
      (Machine.callFunction limit m' depth home name args') :=
  simulates_invoke hm limit depth (calleeAlike_function home name) hargs

omit hm in
theorem simulates_lookFunction (home : Home) (name : Bytes) :
    r.Simulates quiet (Option.map (r.function home)) (Run.look (·.function? home name))
      (Run.look (·.function? home name)) :=
  simulates_look fun _ _ hw => function?_alike hw home name

omit hm in
theorem simulates_lookDefinition (home : Home) (name : Bytes) :
    r.Simulates quiet (Option.map r.value) (Run.look (·.definition? home name))
      (Run.look (·.definition? home name)) :=
  simulates_look fun _ _ hw => definition?_alike hw home name

theorem simulates_callProcedure {p p' : Procedure} {args args' : List Value}
    (hp : Procedure.resolve r p = Procedure.resolve r p')
    (hargs : args.map r.value = args'.map r.value) :
    r.Simulates quiet r.value (Machine.callProcedure limit m depth args p)
      (Machine.callProcedure limit m' depth args' p') := by
  cases p with
  | closure id clause frame home =>
    cases p' with
    | closure id' clause' frame' home' =>
      rw [resolve_closure, resolve_closure] at hp
      obtain ⟨-, hclause, hframe, rfl⟩ := Procedure.closure.inj hp
      rw [← names_alike hframe] at hclause
      exact simulates_invoke hm limit depth (calleeAlike_lambda home _ hframe hclause) hargs
    | _ => exact nomatch hp
  | function id home name =>
    cases p' with
    | function id' home' name' =>
      obtain ⟨-, rfl, rfl⟩ := Procedure.function.inj hp
      refine (simulates_lookFunction home name).bind fun f? f?' hf => ?_
      match f?, f?' with
      | none, none => exact simulates_raise rfl
      | some _, some _ => exact simulates_callFunction hm limit depth home name hargs
    | _ => exact nomatch hp
  | builtin name b =>
    cases p' with
    | builtin name' b' =>
      obtain ⟨rfl, rfl⟩ := Procedure.builtin.inj hp
      exact Builtin.simulates_invoke (fun _ _ _ _ hp hargs => simulates_call hm depth hp hargs)
        name b hargs
    | _ => exact nomatch hp
  | composition id outer inner =>
    cases p' with
    | composition id' outer' inner' =>
      obtain ⟨-, houter, hinner⟩ := Procedure.composition.inj hp
      refine (simulates_call hm depth hinner hargs).bind fun v v' hv => ?_
      exact simulates_call hm depth houter (congrArg (fun u => [u]) hv)
    | _ => exact nomatch hp
  | partialApplication id p arg =>
    cases p' with
    | partialApplication id' p' arg' =>
      rw [resolve_partialApplication, resolve_partialApplication] at hp
      obtain ⟨-, hp, harg⟩ := Procedure.partialApplication.inj hp
      exact simulates_call hm depth hp (congrArg₂ List.cons harg hargs)
    | _ => exact nomatch hp
  | constant id v =>
    cases p' with
    | constant id' v' =>
      rw [resolve_constant, resolve_constant] at hp
      exact simulates_pure (Procedure.constant.inj hp).2
    | _ => exact nomatch hp

omit hm in
theorem simulates_localReference (hc : r.ContextAlike c c') (name : Bytes) :
    r.Simulates quiet r.value (Machine.localReference c name) (Machine.localReference c' name) := by
  have hlocal : (c.frame.lookup name).map r.value = (c'.frame.lookup name).map r.value := by
    rw [← ValueFrame.lookup_replace, ← ValueFrame.lookup_replace]
    exact congrArg (List.lookup name) hc.frame
  have hlook : r.Simulates quiet (Option.map r.value) (Run.look (Machine.definition? · c.home name))
      (Run.look (Machine.definition? · c'.home name)) := by
    rw [← hc.home]
    exact simulates_look fun _ _ hw => definition?_machine_alike hw c.home name
  unfold Machine.localReference
  match hv : c.frame.lookup name, hv' : c'.frame.lookup name with
  | some v, some v' =>
    rw [hv, hv'] at hlocal
    exact simulates_pure (Option.some.inj hlocal)
  | none, none =>
    refine hlook.bind fun v? v?' hv => ?_
    match v?, v?' with
    | none, none => exact simulates_raise rfl
    | some v, some v' => exact simulates_pure (Option.some.inj hv)
  | some v, none | none, some v =>
    rw [hv, hv'] at hlocal
    exact nomatch hlocal

theorem simulates_functionReference (home : Home) (name : Bytes) {f f' : Function}
    (hf : r.function home f = r.function home f') :
    r.Simulates quiet r.value (Machine.functionReference limit m depth home name f)
      (Machine.functionReference limit m' depth home name f') := by
  have hany : ∀ f : Function, (r.function home f).clauses.any (·.parameters.isEmpty) =
      f.clauses.any (·.parameters.isEmpty) := by
    intro f
    rw [function, List.any_map]
    exact congrArg (List.any f.clauses) (funext fun c => by cases c; rfl)
  have hsame : f.clauses.any (·.parameters.isEmpty) = f'.clauses.any (·.parameters.isEmpty) := by
    rw [← hany f, hf, hany f']
  refine simulates_ite (by rw [hsame]) (simulates_callFunction hm limit depth home name rfl) ?_
  refine simulates_freshId.bind ?_
  rintro n _ rfl
  exact simulates_pure rfl

theorem simulates_freeReference (hc : r.ContextAlike c c') (loc : Location) (name : Bytes) :
    r.Simulates quiet r.value (Machine.freeReference limit m c loc name)
      (Machine.freeReference limit m' c' loc name) := by
  obtain ⟨home, frame, depth⟩ := c
  obtain ⟨home', frame', depth'⟩ := c'
  obtain ⟨rfl, -, rfl⟩ := hc
  have hlook : r.Simulates quiet (Option.map r.value) (Run.look (Machine.definition? · home name))
      (Run.look (Machine.definition? · home name)) :=
    simulates_look fun _ _ hw => definition?_machine_alike hw home name
  refine hlook.bind fun v? v?' hv => ?_
  match v?, v?' with
  | some v, some v' => exact simulates_pure (Option.some.inj hv)
  | none, none =>
    refine (simulates_lookFunction home name).bind fun f? f?' hf => ?_
    match f?, f?' with
    | some f, some f' =>
      exact simulates_functionReference hm limit depth home name (Option.some.inj hf)
    | none, none =>
      refine (simulates_lookFunction .main name).bind fun f? f?' hf => ?_
      match f?, f?' with
      | some f, some f' =>
        exact simulates_functionReference hm limit depth .main name (Option.some.inj hf)
      | none, none =>
        refine (simulates_lookDefinition .core name).bind fun v? v?' hv => ?_
        match v?, v?' with
        | some v, some v' => exact simulates_pure (Option.some.inj hv)
        | none, none => exact simulates_raise rfl

theorem simulates_callNamed (loc : Location) (home : Home) (name : Bytes) {args args' : List Value}
    (hargs : args.map r.value = args'.map r.value) :
    r.Simulates quiet r.value (Machine.callNamed limit m depth loc home name args)
      (Machine.callNamed limit m' depth loc home name args') := by
  have hlength : args.length = args'.length := by
    simpa using congrArg List.length hargs
  refine (simulates_lookFunction home name).bind fun f? f?' hf => ?_
  match f?, f?' with
  | some f, some f' => exact simulates_callFunction hm limit depth home name hargs
  | none, none =>
    refine (simulates_lookDefinition home name).bind fun v? v?' hv => ?_
    match v?, v?' with
    | some v, some v' => exact simulates_callValue hm depth (Option.some.inj hv) hargs
    | none, none => exact simulates_raise (by rw [hlength])

theorem simulates_callByName (hc : r.ContextAlike c c') (loc : Location) (name : Bytes)
    {args args' : List Value} (hargs : args.map r.value = args'.map r.value) :
    r.Simulates quiet r.value (Machine.callByName limit m c loc name args)
      (Machine.callByName limit m' c' loc name args') := by
  obtain ⟨home, frame, depth⟩ := c
  obtain ⟨home', frame', depth'⟩ := c'
  obtain ⟨rfl, -, rfl⟩ := hc
  have hlength : args.length = args'.length := by
    simpa using congrArg List.length hargs
  have hlook : r.Simulates quiet id
      (Run.look fun w => [home, .main, .core].find? (Machine.hasCallable w name))
      (Run.look fun w => [home, .main, .core].find? (Machine.hasCallable w name)) :=
    simulates_look fun _ _ hw => by rw [funext (hasCallable_alike hw name)]
  refine hlook.bind ?_
  rintro found _ rfl
  match found with
  | some found => exact simulates_callNamed hm limit depth loc found name hargs
  | none => exact simulates_raise (by rw [hlength])

theorem simulates_callMember (loc : Location) (home member : Bytes) {args args' : List Value}
    (hargs : args.map r.value = args'.map r.value) :
    r.Simulates quiet r.value (Machine.callMember limit m depth loc home member args)
      (Machine.callMember limit m' depth loc home member args') := by
  have hlength : args.length = args'.length := by
    simpa using congrArg List.length hargs
  have hlook : r.Simulates quiet (Option.map (r.module (.named home)))
      (Run.look (·.module? (.named home))) (Run.look (·.module? (.named home))) :=
    simulates_look fun w w' hw => by rw [← module?_world, hw, module?_world]
  refine simulates_ite Iff.rfl (simulates_callNamed hm limit depth loc .core member hargs) ?_
  refine hlook.bind fun m? m?' hmod => ?_
  match m?, m?' with
  | none, none => exact simulates_raise rfl
  | some mod, some mod' =>
    have hfunction : (mod.function? member).map (r.function (.named home)) =
        (mod'.function? member).map (r.function (.named home)) := by
      rw [← function?_module, Option.some.inj hmod, function?_module]
    dsimp only
    match hf : mod.function? member, hf' : mod'.function? member with
    | none, none => exact simulates_raise (by rw [hlength])
    | some f, some f' =>
      rw [hf, hf'] at hfunction
      have hsame : r.function (.named home) f = r.function (.named home) f' :=
        Option.some.inj hfunction
      have hexported : f.exported = f'.exported := by
        show (r.function (.named home) f).exported = (r.function (.named home) f').exported
        rw [hsame]
      exact simulates_ite (by rw [hexported])
        (simulates_callFunction hm limit depth _ member hargs) (simulates_raise rfl)
    | some f, none | none, some f =>
      rw [hf, hf'] at hfunction
      exact nomatch hfunction

end Calls

end Resolver
end ClauseLisp
