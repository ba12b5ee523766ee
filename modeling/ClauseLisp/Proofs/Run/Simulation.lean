import ClauseLisp.Proofs.World.Resolution

/-! Runs that do the same up to the resolving of names. One run simulates another one if, in worlds
that are resolved alike, it ends as the other does, except that it may go on where the other is
exhausted. This is asked only where the names have no other meaning in the world that the first run
leaves; since worlds only grow they have none in any world before. -/

namespace ClauseLisp

namespace World

variable {w w' w'' : World} {home : Home} {name : Bytes}

theorem Grows.function? (h : w.Grows w') (hf : w'.function? home name = none) :
    w.function? home name = none := by
  unfold World.function? at hf ⊢
  cases hm : w.module? home with
  | none => rfl
  | some m =>
    obtain ⟨m', hm', hgrows⟩ := h.modules hm
    rw [hm'] at hf
    cases hold : m.function? name with
    | none => exact hold
    | some f =>
      obtain ⟨f', hf', -⟩ := hgrows.functions hold
      exact absurd (hf'.symm.trans hf) (Option.some_ne_none f')

theorem Grows.definition? (h : w.Grows w') (hd : (w.definition? home name).isSome) :
    (w'.definition? home name).isSome := by
  unfold World.definition? at hd ⊢
  cases hm : w.module? home with
  | none => simp [hm] at hd
  | some m =>
    obtain ⟨m', hm', hgrows⟩ := h.modules hm
    rw [hm] at hd
    rw [hm']
    exact hgrows.definitions hd

/-- The world has grown. What is quiet leaves the definitions of the main module alone. -/
structure Later (quiet : Prop) (w w' : World) : Prop where
  grows : w.Grows w'
  definitions : quiet → w'.main.definitions = w.main.definitions

theorem Later.refl (quiet : Prop) (w : World) : Later quiet w w := ⟨.refl w, fun _ => rfl⟩

theorem Later.trans {quiet : Prop} (h : Later quiet w w') (h' : Later quiet w' w'') :
    Later quiet w w'' :=
  ⟨h.grows.trans h'.grows, fun hq => (h'.definitions hq).trans (h.definitions hq)⟩

theorem Later.mono {quiet quiet' : Prop} (h : Later quiet w w') (hq : quiet' → quiet) :
    Later quiet' w w' :=
  ⟨h.grows, fun hq' => h.definitions (hq hq')⟩

theorem Later.definition?_main {quiet : Prop} (h : Later quiet w w') (hq : quiet) (name : Bytes) :
    w'.definition? .main name = w.definition? .main name :=
  congrArg (fun t : Table Value => t.get? name) (h.definitions hq)

end World

namespace Resolver

variable (r : Resolver)

def Ready (w : World) : Prop := ∀ name ∈ r.names, (w.definition? .main name).isSome

/-- The names of calls that are resolved have no meaning but that of the main module's definition,
where they are called. -/
def Clear (w : World) : Prop :=
  ∀ c ∈ r.calls, w.function? c.1 c.2 = none ∧ w.function? .main c.2 = none ∧
    (c.1 ≠ .main → w.definition? c.1 c.2 = none)

variable {r} {w w' : World}

theorem Ready.grows (h : r.Ready w) (hw : w.Grows w') : r.Ready w' :=
  fun name hname => hw.definition? (h name hname)

theorem Clear.of_grows (h : r.Clear w') (hw : w.Grows w') : r.Clear w := by
  intro c hc
  obtain ⟨hhome, hmain, hdefinition⟩ := h c hc
  refine ⟨hw.function? hhome, hw.function? hmain, fun hne => ?_⟩
  by_contra hsome
  have hlater := hw.definition? (Option.isSome_iff_ne_none.mpr hsome)
  rw [hdefinition hne] at hlater
  exact Bool.noConfusion hlater

theorem function?_alike (h : r.world w = r.world w') (home : Home) (name : Bytes) :
    (w.function? home name).map (r.function home) =
      (w'.function? home name).map (r.function home) := by
  rw [← function?_world, h, function?_world]

theorem definition?_alike (h : r.world w = r.world w') (home : Home) (name : Bytes) :
    (w.definition? home name).map r.value = (w'.definition? home name).map r.value := by
  rw [← definition?_world, h, definition?_world]

theorem Clear.alike (hc : r.Clear w) (h : r.world w = r.world w') : r.Clear w' := by
  intro c hmem
  obtain ⟨hhome, hmain, hdefinition⟩ := hc c hmem
  have hfunction : ∀ home, w.function? home c.2 = none → w'.function? home c.2 = none := by
    intro home hnone
    have hsame := function?_alike h home c.2
    rw [hnone] at hsame
    exact Option.map_eq_none_iff.mp hsame.symm
  refine ⟨hfunction _ hhome, hfunction _ hmain, fun hne => ?_⟩
  have hsame := definition?_alike h c.1 c.2
  rw [hdefinition hne] at hsame
  exact Option.map_eq_none_iff.mp hsame.symm

variable (r)

inductive Matches {α β : Type} (g : α → β) : Outcome α × World → Outcome α × World → Prop
  | value {a a' w w'} (ha : g a = g a') (hw : r.world w = r.world w') :
    Matches g (.value a, w) (.value a', w')
  | fault {f f' : Fault} {w w'}
    (hf : f.replace (Procedure.resolve r) = f'.replace (Procedure.resolve r))
    (hw : r.world w = r.world w') : Matches g (.fault f, w) (.fault f', w')
  | exhausted (w end') : Matches g (.exhausted, w) end'

structure Simulates {α β : Type} (quiet : Prop) (g : α → β) (x x' : Run α) : Prop where
  later : ∀ w, World.Later quiet w (x w).2
  ends : ∀ {w w'}, r.Ready w → r.world w = r.world w' → r.Clear (x w).2 →
    r.Matches g (x w) (x' w')

section Combinators

variable {r} {α β γ δ : Type} {quiet : Prop} {g : α → β} {h : γ → δ} {x x' : Run α}

theorem Simulates.mono {quiet' : Prop} (hx : r.Simulates quiet g x x') (hq : quiet' → quiet) :
    r.Simulates quiet' g x x' :=
  ⟨fun w => (hx.later w).mono hq, hx.ends⟩

theorem simulates_pure {a a' : α} (ha : g a = g a') : r.Simulates quiet g (pure a) (pure a') :=
  ⟨.refl quiet, fun _ hw _ => .value ha hw⟩

theorem simulates_raise {f f' : Fault}
    (hf : f.replace (Procedure.resolve r) = f'.replace (Procedure.resolve r)) :
    r.Simulates quiet g (Run.raise f) (Run.raise f') :=
  ⟨.refl quiet, fun _ hw _ => .fault hf hw⟩

theorem simulates_exhaust (x' : Run α) : r.Simulates quiet g Run.exhaust x' :=
  ⟨.refl quiet, fun _ _ _ => .exhausted _ _⟩

theorem simulates_ofExcept {x x' : Except Fault α}
    (hx : replaced (Procedure.resolve r) g x = replaced (Procedure.resolve r) g x') :
    r.Simulates quiet g (Run.ofExcept x) (Run.ofExcept x') := by
  match x, x' with
  | .ok a, .ok a' => exact simulates_pure (Except.ok.inj hx)
  | .error f, .error f' => exact simulates_raise (Except.error.inj hx)

theorem simulates_look {f f' : World → α}
    (hf : ∀ w w', r.world w = r.world w' → g (f w) = g (f' w')) :
    r.Simulates quiet g (Run.look f) (Run.look f') :=
  ⟨.refl quiet, fun _ hw _ => .value (hf _ _ hw) hw⟩

theorem simulates_change {f f' : World → World} (hlater : ∀ w, World.Later quiet w (f w))
    (hf : ∀ w w', r.world w = r.world w' → r.world (f w) = r.world (f' w')) :
    r.Simulates quiet id (Run.change f) (Run.change f') :=
  ⟨hlater, fun _ hw _ => .value rfl (hf _ _ hw)⟩

theorem later_made (w : World) (n : Nat) : World.Later quiet w { w with made := n } :=
  ⟨World.grows_of_module? (w.module?_made n) List.prefix_rfl, fun _ => rfl⟩

theorem simulates_freshId : r.Simulates quiet id Run.freshId Run.freshId := by
  refine ⟨fun w => later_made w _, fun {w w'} _ hw _ => ?_⟩
  have hmade : w.made = w'.made := by
    show (r.world w).made = (r.world w').made
    rw [hw]
  refine .value hmade ?_
  rw [← hmade]
  exact congrArg (fun u : World => { u with made := w.made + 1 }) hw

theorem Simulates.bind {k k' : α → Run γ} (hx : r.Simulates quiet g x x')
    (hk : ∀ a a', g a = g a' → r.Simulates quiet h (k a) (k' a')) :
    r.Simulates quiet h (x >>= k) (x' >>= k') := by
  constructor
  · intro w
    have hlater := hx.later w
    rcases hxw : x w with ⟨o, u⟩
    rw [hxw] at hlater
    cases o with
    | value a =>
      rw [Run.bind_of_value hxw]
      exact hlater.trans ((hk a a rfl).later u)
    | fault e =>
      rw [Run.bind_of_fault hxw]
      exact hlater
    | exhausted =>
      rw [Run.bind_of_exhausted hxw]
      exact hlater
  · intro w w' hr hw hc
    have hlater := hx.later w
    have hends := hx.ends hr hw
    rcases hxw : x w with ⟨o, u⟩
    rcases hxw' : x' w' with ⟨o', u'⟩
    rw [hxw] at hlater
    rw [hxw, hxw'] at hends
    cases o with
    | value a =>
      rw [Run.bind_of_value hxw] at hc ⊢
      -- What is clear in the end has been clear after the first run.
      cases hends (hc.of_grows ((hk a a rfl).later u).grows) with
      | value ha hu =>
        rw [Run.bind_of_value hxw']
        exact (hk _ _ ha).ends (hr.grows hlater.grows) hu hc
    | fault e =>
      rw [Run.bind_of_fault hxw] at hc ⊢
      cases hends hc with
      | fault hf hu =>
        rw [Run.bind_of_fault hxw']
        exact .fault hf hu
    | exhausted =>
      rw [Run.bind_of_exhausted hxw]
      exact .exhausted _ _

theorem Simulates.catching {handle handle' : Fault → Run α} (hx : r.Simulates quiet g x x')
    (hhandle : ∀ f f', f.replace (Procedure.resolve r) = f'.replace (Procedure.resolve r) →
      r.Simulates quiet g (handle f) (handle' f')) :
    r.Simulates quiet g (Run.catching x handle) (Run.catching x' handle') := by
  constructor
  · intro w
    have hlater := hx.later w
    rcases hxw : x w with ⟨o, u⟩
    rw [hxw] at hlater
    cases o with
    | value a =>
      rw [Run.catching_of_value hxw, hxw]
      exact hlater
    | fault e =>
      rw [Run.catching_of_fault hxw]
      exact hlater.trans ((hhandle e e rfl).later u)
    | exhausted =>
      rw [Run.catching_of_exhausted hxw, hxw]
      exact hlater
  · intro w w' hr hw hc
    have hlater := hx.later w
    have hends := hx.ends hr hw
    rcases hxw : x w with ⟨o, u⟩
    rcases hxw' : x' w' with ⟨o', u'⟩
    rw [hxw] at hlater
    rw [hxw, hxw'] at hends
    cases o with
    | value a =>
      rw [Run.catching_of_value hxw, hxw] at hc ⊢
      cases hends hc with
      | value ha hu =>
        rw [Run.catching_of_value hxw', hxw']
        exact .value ha hu
    | fault e =>
      rw [Run.catching_of_fault hxw] at hc ⊢
      cases hends (hc.of_grows ((hhandle e e rfl).later u).grows) with
      | fault hf hu =>
        rw [Run.catching_of_fault hxw']
        exact (hhandle _ _ hf).ends (hr.grows hlater.grows) hu hc
    | exhausted =>
      rw [Run.catching_of_exhausted hxw, hxw]
      exact .exhausted _ _

theorem simulates_ite {p p' : Prop} [Decidable p] [Decidable p'] {y y' : Run α} (hp : p ↔ p')
    (hx : r.Simulates quiet g x x') (hy : r.Simulates quiet g y y') :
    r.Simulates quiet g (if p then x else y) (if p' then x' else y') := by
  by_cases hcase : p
  · rw [if_pos hcase, if_pos (hp.mp hcase)]
    exact hx
  · rw [if_neg hcase, if_neg (fun hp' => hcase (hp.mpr hp'))]
    exact hy

section Loops

variable {as as' : List α}

theorem simulates_forEach {f f' : α → Run γ}
    (hf : ∀ a a', g a = g a' → r.Simulates quiet h (f a) (f' a')) (has : as.map g = as'.map g) :
    r.Simulates quiet (List.map h) (Run.forEach f as) (Run.forEach f' as') := by
  induction as generalizing as' with
  | nil =>
    obtain rfl := List.map_eq_nil_iff.mp has.symm
    exact simulates_pure rfl
  | cons a as ih =>
    obtain ⟨a', as', rfl, ha, has⟩ := List.map_eq_cons_iff.mp has.symm
    refine (hf a a' ha.symm).bind fun b b' hb => (ih has.symm).bind fun bs bs' hbs => ?_
    exact simulates_pure (by rw [List.map_cons, List.map_cons, hb, hbs])

theorem simulates_foldLeft {f f' : γ → α → Run γ}
    (hf : ∀ b b' a a', h b = h b' → g a = g a' → r.Simulates quiet h (f b a) (f' b' a'))
    {b b' : γ} (hb : h b = h b') (has : as.map g = as'.map g) :
    r.Simulates quiet h (Run.foldLeft f b as) (Run.foldLeft f' b' as') := by
  induction as generalizing as' b b' with
  | nil =>
    obtain rfl := List.map_eq_nil_iff.mp has.symm
    exact simulates_pure hb
  | cons a as ih =>
    obtain ⟨a', as', rfl, ha, has⟩ := List.map_eq_cons_iff.mp has.symm
    exact (hf b b' a a' hb ha.symm).bind fun c c' hc => ih hc has.symm

variable {test test' : α → Run Bool}

theorem simulates_findFirst
    (htest : ∀ a a', g a = g a' → r.Simulates quiet id (test a) (test' a'))
    (has : as.map g = as'.map g) :
    r.Simulates quiet (Option.map g) (Run.findFirst test as) (Run.findFirst test' as') := by
  induction as generalizing as' with
  | nil =>
    obtain rfl := List.map_eq_nil_iff.mp has.symm
    exact simulates_pure rfl
  | cons a as ih =>
    obtain ⟨a', as', rfl, ha, has⟩ := List.map_eq_cons_iff.mp has.symm
    refine (htest a a' ha.symm).bind ?_
    rintro b _ rfl
    exact simulates_ite Iff.rfl (simulates_pure (congrArg some ha.symm)) (ih has.symm)

theorem simulates_splitBy
    (htest : ∀ a a', g a = g a' → r.Simulates quiet id (test a) (test' a'))
    (has : as.map g = as'.map g) :
    r.Simulates quiet (Prod.map (List.map g) (List.map g)) (Run.splitBy test as)
      (Run.splitBy test' as') := by
  induction as generalizing as' with
  | nil =>
    obtain rfl := List.map_eq_nil_iff.mp has.symm
    exact simulates_pure rfl
  | cons a as ih =>
    obtain ⟨a', as', rfl, ha, has⟩ := List.map_eq_cons_iff.mp has.symm
    refine (htest a a' ha.symm).bind ?_
    rintro accepted _ rfl
    refine (ih has.symm).bind ?_
    rintro ⟨yes, no⟩ ⟨yes', no'⟩ hsplit
    obtain ⟨hyes, hno⟩ := Prod.mk.inj hsplit
    refine simulates_pure ?_
    cases accepted <;> simp_all [Prod.map]

end Loops

end Combinators

end Resolver

namespace Builtin

open Resolver (simulates_pure simulates_raise simulates_ofExcept simulates_freshId
  simulates_forEach simulates_foldLeft simulates_findFirst simulates_splitBy simulates_ite)

variable {r : Resolver} {quiet : Prop} {call call' : Caller} {x x' y y' : Value}

theorem simulates_procedure (hx : r.value x = r.value x') :
    r.Simulates quiet (Procedure.resolve r) (procedure x) (procedure x') :=
  simulates_ofExcept (replaced_congr Value.expectProcedure_replace hx)

theorem simulates_elements (hx : r.value x = r.value x') :
    r.Simulates quiet (List.map r.value) (elements x) (elements x') :=
  simulates_ofExcept (replaced_congr Value.expectList_replace hx)

theorem simulates_procedure_elements {k k' : Procedure → List Value → Run Value}
    (hk : ∀ p p' xs xs', Procedure.resolve r p = Procedure.resolve r p' →
      xs.map r.value = xs'.map r.value → r.Simulates quiet r.value (k p xs) (k' p' xs'))
    (hx : r.value x = r.value x') (hy : r.value y = r.value y') :
    r.Simulates quiet r.value (do let p ← procedure x; k p (← elements y))
      (do let p ← procedure x'; k' p (← elements y')) :=
  (simulates_procedure hx).bind fun p p' hp => (simulates_elements hy).bind fun xs xs' hxs =>
    hk p p' xs xs' hp hxs

theorem simulates_newProcedure {make make' : Nat → Procedure}
    (hmake : ∀ n, Procedure.resolve r (make n) = Procedure.resolve r (make' n)) :
    r.Simulates quiet r.value (newProcedure make) (newProcedure make') := by
  refine simulates_freshId.bind ?_
  rintro n _ rfl
  exact simulates_pure (congrArg Value.procedure (hmake n))

section Perform

variable (hcall : ∀ p p' args args', Procedure.resolve r p = Procedure.resolve r p' →
  args.map r.value = args'.map r.value →
    r.Simulates quiet r.value (call p args) (call' p' args'))

include hcall

theorem simulates_accepts {p p' : Procedure} (hp : Procedure.resolve r p = Procedure.resolve r p')
    (x x' : Value) (hx : r.value x = r.value x') :
    r.Simulates quiet id (accepts call p x) (accepts call' p' x') := by
  refine (hcall p p' [x] [x'] hp (by rw [List.map_singleton, hx, List.map_singleton])).bind ?_
  intro v v' hv
  exact simulates_pure (Resolver.truthy_alike hv)

theorem simulates_combine {p p' : Procedure} (hp : Procedure.resolve r p = Procedure.resolve r p')
    (acc acc' x x' : Value) (hacc : r.value acc = r.value acc') (hx : r.value x = r.value x') :
    r.Simulates quiet r.value (combine call p acc x) (combine call' p' acc' x') :=
  hcall p p' _ _ hp (by simp only [List.map_cons, List.map_nil, hx, hacc])

theorem simulates_binary {b : Builtin} (hx : r.value x = r.value x') (hy : r.value y = r.value y')
    (hcompute : r.Simulates quiet r.value (.ofExcept (b.compute [x, y]))
      (.ofExcept (b.compute [x', y']))) :
    r.Simulates quiet r.value (b.perform call [x, y]) (b.perform call' [x', y']) := by
  cases b with
  | map =>
    refine simulates_procedure_elements (fun p p' xs xs' hp hxs => ?_) hx hy
    refine (simulates_forEach (fun v v' hv => hcall p p' [v] [v'] hp ?_) hxs).bind ?_
    · rw [List.map_singleton, hv, List.map_singleton]
    · intro vs vs' hvs
      exact simulates_pure (by rw [r.value_list, hvs, r.value_list])
  | filter =>
    refine simulates_procedure_elements (fun p p' xs xs' hp hxs => ?_) hx hy
    refine (simulates_splitBy (simulates_accepts hcall hp) hxs).bind ?_
    rintro ⟨yes, no⟩ ⟨yes', no'⟩ hsplit
    exact simulates_pure
      (by rw [r.value_list, (Prod.mk.inj hsplit).1, r.value_list])
  | partition =>
    refine simulates_procedure_elements (fun p p' xs xs' hp hxs => ?_) hx hy
    refine (simulates_splitBy (simulates_accepts hcall hp) hxs).bind ?_
    rintro ⟨yes, no⟩ ⟨yes', no'⟩ hsplit
    obtain ⟨hyes, hno⟩ := Prod.mk.inj hsplit
    exact simulates_pure
      (by simp only [r.value_list, List.map_cons, List.map_nil, hyes, hno])
  | apply => exact simulates_procedure_elements hcall hx hy
  | all =>
    refine simulates_procedure_elements (fun p p' xs xs' hp hxs => ?_) hx hy
    refine (simulates_findFirst (fun v v' hv => ?_) hxs).bind ?_
    · refine (simulates_accepts hcall hp v v' hv).bind ?_
      rintro b _ rfl
      exact simulates_pure rfl
    · intro o o' ho
      have hsame := congrArg Option.isNone ho
      rw [Option.isNone_map, Option.isNone_map] at hsame
      exact simulates_pure (by rw [hsame])
  | any =>
    refine simulates_procedure_elements (fun p p' xs xs' hp hxs => ?_) hx hy
    refine (simulates_findFirst (simulates_accepts hcall hp) hxs).bind ?_
    intro o o' ho
    have hsame := congrArg Option.isSome ho
    rw [Option.isSome_map, Option.isSome_map] at hsame
    exact simulates_pure (by rw [hsame])
  | find =>
    refine simulates_procedure_elements (fun p p' xs xs' hp hxs => ?_) hx hy
    refine (simulates_findFirst (simulates_accepts hcall hp) hxs).bind ?_
    intro o o' ho
    refine simulates_pure ?_
    match o, o' with
    | none, none => rfl
    | some v, some v' => exact Option.some.inj ho
  | compose =>
    refine (simulates_procedure hx).bind fun p p' hp => (simulates_procedure hy).bind ?_
    intro q q' hq
    exact simulates_newProcedure fun n => by rw [Procedure.resolve, hp, hq, Procedure.resolve]
  | partialApply =>
    refine (simulates_procedure hx).bind fun p p' hp => simulates_newProcedure fun n => ?_
    rw [r.resolve_partialApplication, hp, hy, r.resolve_partialApplication]
  | _ => exact hcompute

theorem simulates_perform (b : Builtin) {args args' : List Value}
    (hargs : args.map r.value = args'.map r.value) :
    r.Simulates quiet r.value (b.perform call args) (b.perform call' args') := by
  have hcompute : r.Simulates quiet r.value (.ofExcept (b.compute args))
      (.ofExcept (b.compute args')) :=
    simulates_ofExcept (replaced_congr (compute_replace (Procedure.faithful_resolve r) b) hargs)
  match args, args' with
  | [], [] => cases b <;> exact hcompute
  | [x], [x'] =>
    have hx := (List.cons.inj hargs).1
    cases b with
    | constantly =>
      refine simulates_newProcedure fun n => ?_
      rw [r.resolve_constant, hx, r.resolve_constant]
    | _ => exact hcompute
  | [x, y], [x', y'] =>
    obtain ⟨hx, hy⟩ := List.cons.inj hargs
    exact simulates_binary hcall hx (List.cons.inj hy).1 hcompute
  | [x, y, z], [x', y', z'] =>
    obtain ⟨hx, hargs⟩ := List.cons.inj hargs
    obtain ⟨hy, hargs⟩ := List.cons.inj hargs
    have hz := (List.cons.inj hargs).1
    cases b with
    | foldLeft =>
      refine simulates_procedure_elements (fun p p' xs xs' hp hxs => ?_) hx hz
      exact simulates_foldLeft (simulates_combine hcall hp) hy hxs
    | foldRight =>
      refine simulates_procedure_elements (fun p p' xs xs' hp hxs => ?_) hx hz
      refine simulates_foldLeft (simulates_combine hcall hp) hy ?_
      rw [List.map_reverse, hxs, List.map_reverse]
    | _ => exact hcompute
  | _ :: _ :: _ :: _ :: _, _ :: _ :: _ :: _ :: _ => cases b <;> exact hcompute
  | [], _ :: _ | _ :: _, [] => exact nomatch hargs
  | [_], _ :: _ :: _ | _ :: _ :: _, [_] => exact nomatch (List.cons.inj hargs).2
  | [_, _], _ :: _ :: _ :: _ | _ :: _ :: _ :: _, [_, _] =>
    exact nomatch (List.cons.inj (List.cons.inj hargs).2).2
  | [_, _, _], _ :: _ :: _ :: _ :: _ | _ :: _ :: _ :: _ :: _, [_, _, _] =>
    exact nomatch (List.cons.inj (List.cons.inj (List.cons.inj hargs).2).2).2

theorem simulates_invoke (name : Bytes) (b : Builtin) {args args' : List Value}
    (hargs : args.map r.value = args'.map r.value) :
    r.Simulates quiet r.value (invoke call name b args) (invoke call' name b args') := by
  have hlength : args.length = args'.length := by
    simpa using congrArg List.length hargs
  have hperform := simulates_perform hcall b hargs
  unfold invoke
  cases b.arity? with
  | none => exact hperform
  | some n =>
    dsimp only
    rw [hlength]
    exact simulates_ite Iff.rfl hperform (simulates_raise rfl)

end Perform

end Builtin
end ClauseLisp
