import ClauseLisp.Proofs.Machine.Simulation

/-! Evaluation up to the resolving of names. Where the main module defines a name, a free reference
to it is as good as a local one; where a called name has no other meaning, a call by the name is as
good as a call of the local one, although the first looks the name up after the operands are
evaluated and the second before. So machines with one more unit of fuel perform tasks that are
resolved alike in the same way. -/

namespace ClauseLisp

theorem Run.look_bind {α β : Type} (f : World → α) (k : α → Run β) {w : World} {a : α}
    (h : f w = a) : (Run.look f >>= k) w = k a w := by
  subst h
  rfl

namespace Resolver

open ClauseLisp.Expr (RefersTo)

variable {r : Resolver} {c c' : Context} {w w' : World} {name : Bytes} {e e' target : Expr}
  {es es' : List Expr} {v : Value} {args : List Value} {m m' : Machine} {quiet : Prop}
  (limit : Nat) (top : Bool)

theorem evaluateStep_reference (he : RefersTo name e) (hfree : name ∉ c.frame.map Prod.fst)
    (hv : Machine.definition? w c.home name = some v) :
    Machine.evaluateStep limit m c top e w = (.value v, w) := by
  rcases he with rfl | ⟨loc, rfl⟩
  · have hnone : c.frame.lookup name = none := by
      rw [List.lookup_eq_none_iff]
      intro b hb
      simp only [bne_iff_ne, ne_eq]
      exact fun heq => hfree (List.mem_map.mpr ⟨b, hb, heq.symm⟩)
    rw [Machine.evaluateStep, Machine.localReference, hnone]
    exact Run.look_bind (Machine.definition? · c.home name) _ hv
  · rw [Machine.evaluateStep, Machine.freeReference]
    exact Run.look_bind (Machine.definition? · c.home name) _ hv

theorem callByName_definition (hcall : (c.home, name) ∈ r.calls) (hw : r.Clear w)
    (hv : w.definition? .main name = some v) (loc : Location) :
    Machine.callByName limit m c loc name args w = Machine.callValue m c.depth v args w := by
  obtain ⟨hhome, hmain, hdefinition⟩ := hw _ hcall
  have hfound : [c.home, .main, .core].find? (Machine.hasCallable w name) = some .main := by
    have hcallable : Machine.hasCallable w name .main = true := by
      simp [Machine.hasCallable, hv]
    by_cases h : c.home = .main
    · rw [h, List.find?_cons, hcallable]
    · have hnot : Machine.hasCallable w name c.home = false := by
        simp [Machine.hasCallable, hhome, hdefinition h]
      rw [List.find?_cons, hnot, List.find?_cons, hcallable]
  calc
    Machine.callByName limit m c loc name args w =
        Machine.callNamed limit m c.depth loc .main name args w :=
      Run.look_bind (fun w => [c.home, .main, .core].find? (Machine.hasCallable w name)) _ hfound
    _ = Machine.callValue m c.depth v args w :=
      (Run.look_bind (·.function? .main name) _ hmain).trans
        (Run.look_bind (·.definition? .main name) _ hv)

theorem definition?_of_clear (hcall : (c.home, name) ∈ r.calls) (hw : r.Clear w)
    (hv : w.definition? .main name = some v) :
    Machine.definition? w c.home name = some v := by
  obtain ⟨-, -, hdefinition⟩ := hw _ hcall
  unfold Machine.definition?
  by_cases h : c.home = .main
  · rw [h, hv, Option.some_or]
  · rw [hdefinition h, Option.none_or, hv]

theorem exists_definition_alike (hr : r.Ready w) (hw : r.world w = r.world w')
    (hname : name ∈ r.names) :
    ∃ v v', w.definition? .main name = some v ∧ w'.definition? .main name = some v' ∧
      r.value v = r.value v' := by
  obtain ⟨v, hv⟩ := Option.isSome_iff_exists.mp (hr name hname)
  have hsame := definition?_alike hw .main name
  rw [hv] at hsame
  obtain ⟨v', hv', hvalue⟩ := Option.map_eq_some_iff.mp hsame.symm
  exact ⟨v, v', hv, hv', hvalue.symm⟩

section References

variable (hm : r.Machines m m')

include hm

theorem simulates_resolvedRef (hc : r.ContextAlike c c') (hname : name ∈ r.names)
    (hfree : name ∉ c.frame.map Prod.fst) (he : RefersTo name e) (he' : RefersTo name e') :
    r.Simulates quiet r.value (Machine.evaluateStep limit m c top e)
      (Machine.evaluateStep limit m' c' top e') := by
  have hself : r.Simulates quiet r.value (Machine.evaluateStep limit m c top e)
      (Machine.evaluateStep limit m' c top e) := by
    rcases he with rfl | ⟨loc, rfl⟩
    · exact simulates_localReference (.refl c) name
    · exact simulates_freeReference hm limit (.refl c) loc name
  refine ⟨hself.later, fun {w w'} hr hw _ => ?_⟩
  obtain ⟨u, hu⟩ : ∃ u, Machine.definition? w c.home name = some u := by
    refine Option.isSome_iff_exists.mp ?_
    rw [Machine.definition?, Option.isSome_or, hr name hname, Bool.or_true]
  have hsame := definition?_machine_alike hw c.home name
  rw [hu] at hsame
  obtain ⟨u', hu', hvalue⟩ := Option.map_eq_some_iff.mp hsame.symm
  rw [hc.home] at hu'
  rw [names_alike hc.frame] at hfree
  rw [evaluateStep_reference limit top he (names_alike hc.frame ▸ hfree) hu,
    evaluateStep_reference limit top he' hfree hu']
  exact .value hvalue.symm hw

end References

section Calls

variable (hm : r.Machines m m') (hc : r.ContextAlike c c') (hcall : (c.home, name) ∈ r.calls)
  (hfree : name ∉ c.frame.map Prod.fst) (htarget : RefersTo name target)
  (hes : Expr.resolveAll r c.home false (c.frame.map Prod.fst) es =
    Expr.resolveAll r c.home false (c.frame.map Prod.fst) es')

include hm hc hcall hfree htarget hes

theorem simulates_callApply (hstep : ∃ m₀, m' = Machine.step limit m₀) (loc : Location) :
    r.Simulates quiet r.value (Machine.evaluateStep limit m c top (.call loc name es))
      (Machine.evaluateStep limit m' c' top (.apply loc target es')) := by
  obtain ⟨m₀, rfl⟩ := hstep
  have hargs : r.Simulates True (List.map r.value) (Machine.evaluateAll m c es)
      (Machine.evaluateAll (Machine.step limit m₀) c' es') := simulates_evaluateAll hm hc hes
  have hself : r.Simulates quiet r.value (Machine.evaluateStep limit m c top (.call loc name es))
      (Machine.evaluateStep limit (Machine.step limit m₀) c top (.call loc name es)) :=
    (simulates_evaluateAll hm (.refl c) rfl).bind fun _ _ =>
      simulates_callByName hm limit (.refl c) loc name
  refine ⟨hself.later, fun {w w'} hr hw hclear => ?_⟩
  have hlater := hargs.later w
  have hends := hargs.ends hr hw
  rw [Machine.evaluateStep] at hclear ⊢
  rw [Machine.evaluateStep]
  obtain ⟨v, v', hv, hv', hvalue⟩ := exists_definition_alike hr hw (r.calls_names _ hcall)
  rcases hx : Machine.evaluateAll m c es w with ⟨o, u⟩
  rw [hx] at hlater hends
  -- The operands leave the definition alone, so that looking it up first makes no difference.
  have hlocal : r.Clear u → Machine.evaluate (Machine.step limit m₀) c' target w' =
      (.value v', w') := by
    intro hu
    have hw' := (hu.of_grows hlater.grows).alike hw
    rw [hc.home] at hcall
    rw [names_alike hc.frame] at hfree
    exact evaluateStep_reference limit false htarget hfree (definition?_of_clear hcall hw' hv')
  cases o with
  | exhausted =>
    rw [Run.bind_of_exhausted hx]
    exact .exhausted _ _
  | fault f =>
    rw [Run.bind_of_fault hx] at hclear ⊢
    rw [Run.bind_of_value (hlocal hclear)]
    rcases hx' : Machine.evaluateAll (Machine.step limit m₀) c' es' w' with ⟨o', u'⟩
    rw [hx'] at hends
    cases hends hclear with
    | fault hf hu =>
      rw [Run.bind_of_fault hx']
      exact .fault hf hu
  | value vs =>
    rw [Run.bind_of_value hx] at hclear ⊢
    have hcalled : r.Simulates True r.value (Machine.callByName limit m c loc name vs) _ :=
      simulates_callByName hm limit (.refl c) loc name rfl
    have hu := hclear.of_grows (hcalled.later u).grows
    rw [Run.bind_of_value (hlocal hu)]
    rcases hx' : Machine.evaluateAll (Machine.step limit m₀) c' es' w' with ⟨o', u'⟩
    rw [hx'] at hends
    cases hends hu with
    | value hvs hworlds =>
      rw [Run.bind_of_value hx']
      have hv := (hlater.definition?_main trivial name).trans hv
      rw [callByName_definition limit hcall hu hv] at hclear ⊢
      rw [← hc.depth]
      have happlied : r.Simulates True r.value (Machine.callValue m c.depth v vs) _ :=
        simulates_callValue hm c.depth hvalue hvs
      exact happlied.ends (hr.grows hlater.grows) hworlds hclear

theorem simulates_applyCall (hstep : (∀ task, m task = .exhaust) ∨ ∃ m₀, m = Machine.step limit m₀)
    (loc : Location) :
    r.Simulates quiet r.value (Machine.evaluateStep limit m c top (.apply loc target es))
      (Machine.evaluateStep limit m' c' top (.call loc name es')) := by
  have hargs : r.Simulates True (List.map r.value) (Machine.evaluateAll m c es)
      (Machine.evaluateAll m' c' es') := simulates_evaluateAll hm hc hes
  have hself : r.Simulates quiet r.value
      (Machine.evaluateStep limit m c top (.apply loc target es))
      (Machine.evaluateStep limit m' c top (.apply loc target es)) :=
    (simulates_evaluate hm (.refl c) rfl).bind fun _ _ hv =>
      (simulates_evaluateAll hm (.refl c) rfl).bind fun _ _ => simulates_callValue hm c.depth hv
  refine ⟨hself.later, fun {w w'} hr hw hclear => ?_⟩
  have hlater := hargs.later w
  have hends := hargs.ends hr hw
  have hself := hself.later w
  rw [Machine.evaluateStep] at hclear hself ⊢
  rw [Machine.evaluateStep]
  obtain ⟨v, hv⟩ := Option.isSome_iff_exists.mp (hr name (r.calls_names _ hcall))
  rcases hstep with hexhaust | ⟨m₀, rfl⟩
  · have hnone : Machine.evaluate m c target w = (.exhausted, w) := congrFun (hexhaust _) w
    rw [Run.bind_of_exhausted hnone]
    exact .exhausted _ _
  have hlocal : Machine.evaluate (Machine.step limit m₀) c target w = (.value v, w) :=
    evaluateStep_reference limit false htarget hfree
      (definition?_of_clear hcall (hclear.of_grows hself.grows) hv)
  rw [Run.bind_of_value hlocal] at hclear ⊢
  rcases hx : Machine.evaluateAll (Machine.step limit m₀) c es w with ⟨o, u⟩
  rcases hx' : Machine.evaluateAll m' c' es' w' with ⟨o', u'⟩
  rw [hx] at hlater
  rw [hx, hx'] at hends
  cases o with
  | exhausted =>
    rw [Run.bind_of_exhausted hx]
    exact .exhausted _ _
  | fault f =>
    rw [Run.bind_of_fault hx] at hclear ⊢
    cases hends hclear with
    | fault hf hu =>
      rw [Run.bind_of_fault hx']
      exact .fault hf hu
  | value vs =>
    rw [Run.bind_of_value hx] at hclear ⊢
    have happlied : ∀ v' vs', r.value v = r.value v' → vs.map r.value = vs'.map r.value →
        r.Simulates True r.value (Machine.callValue (Machine.step limit m₀) c.depth v vs)
          (Machine.callValue m' c.depth v' vs') :=
      fun _ _ => simulates_callValue hm c.depth
    have hu := hclear.of_grows ((happlied v vs rfl rfl).later u).grows
    cases hends hu with
    | value hvs hworlds =>
      rw [Run.bind_of_value hx']
      -- The operands leave the definition alone, and it is the same on both sides.
      have hsame := definition?_alike hworlds .main name
      rw [hlater.definition?_main trivial name, hv] at hsame
      obtain ⟨v', hv', hvalue⟩ := Option.map_eq_some_iff.mp hsame.symm
      rw [hc.home] at hcall
      rw [callByName_definition limit hcall (hu.alike hworlds) hv', ← hc.depth]
      exact (happlied v' _ hvalue.symm hvs).ends (hr.grows hlater.grows) hworlds hclear

end Calls

section Changes

theorem later_addClauses (w : World) (home : Home) (name : Bytes) (exported : Bool)
    (clauses : List Clause) :
    World.Later quiet w (w.update home (·.addClauses name exported clauses)) := by
  refine ⟨w.grows_update home fun m => m.grows_addClauses name exported clauses, fun _ => ?_⟩
  cases home with
  | named key => cases hm : w.modules.get? key <;> simp [World.update, hm]
  | _ => rfl

theorem later_define (w : World) {home : Home} (hhome : quiet → home ≠ .main) (name : Bytes)
    (v : Value) : World.Later quiet w (w.update home (·.define name v)) := by
  refine ⟨w.grows_update home fun m => m.grows_define name v, fun hq => ?_⟩
  cases home with
  | main => exact absurd rfl (hhome hq)
  | core => rfl
  | named key => cases hm : w.modules.get? key <;> simp [World.update, hm]

theorem later_ensureModule (w : World) (name : Bytes) :
    World.Later quiet w (w.ensureModule name) := by
  refine ⟨w.grows_ensureModule name, fun _ => ?_⟩
  cases hm : w.modules.get? name <;> simp [World.ensureModule, hm]

theorem simulates_define {home : Home} (hhome : quiet → home ≠ .main) (name : Bytes) {v v' : Value}
    (hv : r.value v = r.value v') :
    r.Simulates quiet id (Run.change (·.update home (·.define name v)))
      (Run.change (·.update home (·.define name v'))) := by
  refine simulates_change (later_define · hhome name v) fun w w' hw => ?_
  rw [world_define, hv, hw, world_define]

theorem simulates_addClauses (home : Home) (name : Bytes) (exported : Bool)
    {clauses clauses' : List Clause}
    (hclauses : Expr.resolveClauses r home [] clauses = Expr.resolveClauses r home [] clauses') :
    r.Simulates quiet id (Run.change (·.update home (·.addClauses name exported clauses)))
      (Run.change (·.update home (·.addClauses name exported clauses'))) := by
  rw [Expr.resolveClauses_eq_map, Expr.resolveClauses_eq_map] at hclauses
  refine simulates_change (later_addClauses · home name exported clauses) fun w w' hw => ?_
  rw [world_addClauses, hclauses, hw, world_addClauses]

theorem simulates_ensureModule (name : Bytes) :
    r.Simulates quiet id (Run.change (·.ensureModule name)) (Run.change (·.ensureModule name)) := by
  refine simulates_change (later_ensureModule · name) fun w w' hw => ?_
  rw [world_ensureModule, hw, world_ensureModule]

theorem failure_alike {f f' : Fault}
    (hf : f.replace (Procedure.resolve r) = f'.replace (Procedure.resolve r)) :
    Machine.failure f = Machine.failure f' := by
  have hfaithful := Procedure.faithful_resolve r
  rw [Machine.failure, Machine.failure, ← Fault.message_replace hfaithful f, hf,
    Fault.message_replace hfaithful]

end Changes

section Step

variable (hm : r.Machines m m')
  (hleft : (∀ task, m task = .exhaust) ∨ ∃ m₀, m = Machine.step limit m₀)
  (hright : ∃ m₀, m' = Machine.step limit m₀)

include hm hleft hright

theorem simulates_evaluateStep (hc : r.ContextAlike c c') (he : r.ExprAlike c top e e') :
    r.Simulates (top = true → c.home ≠ .main) r.value (Machine.evaluateStep limit m c top e)
      (Machine.evaluateStep limit m' c' top e') := by
  have halike := Expr.alike_of_resolve he
  clear he
  cases halike with
  | literal d => exact simulates_pure rfl
  | localRef name => exact simulates_localReference hc name
  | freeRef loc name => exact simulates_freeReference hm limit hc loc name
  | resolvedRef hname hfree he he' => exact simulates_resolvedRef limit top hm hc hname hfree he he'
  | call loc name hes =>
    exact (simulates_evaluateAll hm hc hes).bind fun _ _ =>
      simulates_callByName hm limit hc loc name
  | callApply loc hname hfree htarget hes =>
    exact simulates_callApply limit top hm hc hname hfree htarget hes hright loc
  | applyCall loc hname hfree htarget hes =>
    exact simulates_applyCall limit top hm hc hname hfree htarget hes hleft loc
  | memberCall loc home member hes =>
    rw [Machine.evaluateStep, Machine.evaluateStep, ← hc.depth]
    exact (simulates_evaluateAll hm hc hes).bind fun _ _ =>
      simulates_callMember hm limit c.depth loc home member
  | apply loc he hes =>
    rw [Machine.evaluateStep, Machine.evaluateStep, ← hc.depth]
    exact (simulates_evaluate hm hc he).bind fun _ _ hv =>
      (simulates_evaluateAll hm hc hes).bind fun _ _ => simulates_callValue hm c.depth hv
  | operation loc op hes =>
    exact (simulates_evaluateAll hm hc hes).bind fun _ _ => simulates_operate op
  | and he hf =>
    refine (simulates_evaluate hm hc he).bind fun v v' hv => ?_
    exact simulates_ite (by rw [truthy_alike hv]) (simulates_evaluate hm hc hf) (simulates_pure hv)
  | or he hf =>
    refine (simulates_evaluate hm hc he).bind fun v v' hv => ?_
    exact simulates_ite (by rw [truthy_alike hv]) (simulates_pure hv) (simulates_evaluate hm hc hf)
  | ifThenElse he hf hg =>
    refine (simulates_evaluate hm hc he).bind fun v v' hv => ?_
    exact simulates_ite (by rw [truthy_alike hv]) (simulates_evaluate hm hc hf)
      (simulates_evaluate hm hc hg)
  | cond loc hbs => exact simulates_evaluateBranches hm loc hc hbs
  | caseOf loc he hcs =>
    exact (simulates_evaluate hm hc he).bind fun _ _ hv =>
      simulates_evaluateChoices hm loc hc hv hcs
  | letIn hbs he => exact simulates_evaluateLet hm hc hbs he
  | lambda hclause =>
    refine simulates_freshId.bind ?_
    rintro n _ rfl
    refine simulates_pure (congrArg Value.procedure ?_)
    rw [resolve_closure, resolve_closure, hclause, hc.frame, names_alike hc.frame, hc.home, id]
  | defineFunction name exported hcs =>
    rw [Machine.evaluateStep, Machine.evaluateStep, ← hc.home]
    refine (simulates_addClauses c.home name exported hcs).bind fun _ _ _ => ?_
    refine simulates_freshId.bind ?_
    rintro n _ rfl
    exact simulates_pure rfl
  | define name he =>
    rw [Machine.evaluateStep, Machine.evaluateStep, ← hc.home]
    refine (simulates_evaluate hm hc he).bind fun v v' hv => ?_
    cases top with
    | true =>
      exact (simulates_define (fun hq => hq rfl) name hv).bind fun _ _ _ => simulates_pure hv
    | false => exact simulates_pure hv
  | topSequence htop hes =>
    subst htop
    exact simulates_evaluateTop hm (fun hq => hq rfl) hc rfl hes
  | sequence htop hes =>
    subst htop
    exact simulates_evaluateBody hm hc rfl hes
  | attempt he =>
    refine (simulates_evaluate hm hc he).catching fun f f' hf => simulates_pure ?_
    rw [failure_alike hf]
  | makeList hes =>
    refine (simulates_evaluateElements hm hc hes).bind fun vs vs' hvs => simulates_pure ?_
    rw [value_list, hvs, value_list]
  | makeTuple hes =>
    refine (simulates_evaluateAll hm hc hes).bind fun vs vs' hvs => simulates_pure ?_
    rw [value_tuple, hvs, value_tuple]
  | defineModule name hes =>
    rw [Machine.evaluateStep, Machine.evaluateStep, ← hc.depth]
    refine (simulates_ensureModule name).bind fun _ _ _ => ?_
    have hbody : r.Simulates (top = true → c.home ≠ .main) r.value
        (Machine.evaluateTop m ⟨.named name, [], c.depth⟩ .nil _)
        (Machine.evaluateTop m' ⟨.named name, [], c.depth⟩ .nil _) :=
      simulates_evaluateTop hm (fun _ => Home.noConfusion) (.refl _) rfl hes
    exact hbody.bind fun _ _ _ => simulates_pure rfl

theorem machines_step : r.Machines (Machine.step limit m) (Machine.step limit m') := by
  intro task task' htask
  cases htask with
  | evaluate hc he => exact simulates_evaluateStep limit _ hm hleft hright hc he
  | call hp hargs => exact simulates_callProcedure hm limit _ hp hargs
  | select hcallee hargs => exact simulates_select hm _ _ hcallee hargs

end Step

/-- Whole runs: the second machine needs more fuel, since it may look up a local name by a task of
its own where the first does without. -/
theorem machines_perform (r : Resolver) (limit fuel : Nat) :
    r.Machines (Machine.perform limit fuel) (Machine.perform limit (fuel + 1)) := by
  induction fuel with
  | zero => exact fun _ => simulates_exhaust _
  | succ fuel ih =>
    refine machines_step limit ih ?_ ⟨_, rfl⟩
    cases fuel with
    | zero => exact Or.inl fun _ => rfl
    | succ fuel => exact Or.inr ⟨_, rfl⟩

end Resolver
end ClauseLisp
