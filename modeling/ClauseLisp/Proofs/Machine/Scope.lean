import ClauseLisp.Proofs.Expr.Scoped
import ClauseLisp.Proofs.Machine.Discipline
import ClauseLisp.Proofs.World.Lookup

/-! Scopes at run time. A scope is reached where each of its names has a value, in the frame or in
a module. Expressions and clauses keep the scope that they were compiled in, and it stays reached
from wherever they are evaluated. -/

namespace ClauseLisp.Scoping

open ClauseLisp.Expr (Scope Scoped ClauseScoped)

/-- Where a name of a scope is found: in the frame, in the module or in the main module. -/
def Bound (w : World) (home : Home) (frame : ValueFrame) (name : Bytes) : Prop :=
  name ∈ frame.map Prod.fst ∨ (Machine.definition? w home name).isSome

def Reached (w : World) (home : Home) (frame : ValueFrame) (scope : Scope) : Prop :=
  ∀ name ∈ scope, Bound w home frame name

def Runs (w : World) (home : Home) (frame : ValueFrame) (clause : Clause) : Prop :=
  ∃ scope, ClauseScoped scope clause ∧ Reached w home frame scope

def Sound (w : World) : Procedure → Prop
  | .closure _ clause frame home => Runs w home frame clause
  | _ => True

structure Good (w : World) : Prop where
  definitions : ∀ {home name v}, w.definition? home name = some v → v.All (Sound w)
  functions : ∀ {home name f}, w.function? home name = some f →
    ∀ clause ∈ f.clauses, Runs w home [] clause

structure Later (w w' : World) : Prop where
  modules : ∀ {home}, (w.module? home).isSome → (w'.module? home).isSome
  definitions : ∀ {home name}, (w.definition? home name).isSome →
    (w'.definition? home name).isSome

def Stands (w : World) (c : Context) (top : Bool) : Place → Prop
  | .main => top = true ∧ c.frame = [] ∧ c.home = .main
  | .module => top = true ∧ c.frame = [] ∧ (w.module? c.home).isSome
  | .inside => top = false

def Fits (w : World) (c : Context) (top : Bool) (e : Expr) : Prop :=
  ∃ place scope, Scoped place scope e ∧ Reached w c.home c.frame scope ∧ Stands w c top place

def Leaves (w : World) (c : Context) (e : Expr) : Prop :=
  ∀ name ∈ e.bound, (w.definition? c.home name).isSome

section Worlds

variable {w w' w'' : World} {home : Home} {frame : ValueFrame} {scope : Scope} {name : Bytes}

theorem Later.refl (w : World) : Later w w := ⟨id, id⟩

theorem Later.trans (h : Later w w') (h' : Later w' w'') : Later w w'' :=
  ⟨fun hm => h'.modules (h.modules hm), fun hd => h'.definitions (h.definitions hd)⟩

theorem isSome_definition? : (Machine.definition? w home name).isSome ↔
    (w.definition? home name).isSome ∨ (w.definition? .main name).isSome := by
  rw [Machine.definition?, Option.isSome_or, Bool.or_eq_true]

theorem Bound.later (h : Bound w home frame name) (hl : Later w w') : Bound w' home frame name := by
  refine h.imp_right fun h => ?_
  rw [isSome_definition?] at h ⊢
  exact h.imp hl.definitions hl.definitions

theorem Reached.later (h : Reached w home frame scope) (hl : Later w w') :
    Reached w' home frame scope :=
  fun name hname => (h name hname).later hl

theorem Runs.later {clause : Clause} (h : Runs w home frame clause) (hl : Later w w') :
    Runs w' home frame clause := by
  obtain ⟨scope, hclause, hreached⟩ := h
  exact ⟨scope, hclause, hreached.later hl⟩

theorem Sound.later {p : Procedure} (h : Sound w p) (hl : Later w w') : Sound w' p := by
  cases p with
  | closure id clause frame home => exact Runs.later h hl
  | _ => trivial

theorem Stands.later {c : Context} {top : Bool} {place : Place} (h : Stands w c top place)
    (hl : Later w w') : Stands w' c top place := by
  cases place with
  | module => exact ⟨h.1, h.2.1, hl.modules h.2.2⟩
  | _ => exact h

theorem Reached.cons (h : Reached w home frame scope) (name : Bytes) (v : Value) :
    Reached w home ((name, v) :: frame) (name :: scope) := by
  refine List.forall_mem_cons.mpr ⟨Or.inl List.mem_cons_self, fun other hother => ?_⟩
  exact (h other hother).imp_left (List.mem_cons_of_mem _)

theorem Reached.matchAll? {ps : List Pattern} {args : List Value} {frame' : ValueFrame}
    (h : Reached w home frame scope) (hmatch : Pattern.matchAll? ps args frame = some frame') :
    Reached w home frame' (Pattern.namesAll ps ++ scope) := by
  have hextends := Pattern.extends_of_matchAll? hmatch
  intro name hname
  rcases List.mem_append.mp hname with hname | hname
  · exact Or.inl (hextends.mem_names.mpr (Or.inl hname))
  · exact (h name hname).imp_left fun h => hextends.mem_names.mpr (Or.inr h)

theorem Good.next (hl : Later w w')
    (hd : ∀ {home name v}, w'.definition? home name = some v → v.All (Sound w))
    (hf : ∀ {home name f}, w'.function? home name = some f →
      ∀ clause ∈ f.clauses, Runs w home [] clause) : Good w' :=
  ⟨fun h => (hd h).mono fun _ hp => hp.later hl, fun h clause hc => (hf h clause hc).later hl⟩

theorem later_of_module? (h : ∀ home, w'.module? home = w.module? home) : Later w w' := by
  constructor
  · intro home hm
    rw [h]
    exact hm
  · intro home name hd
    unfold World.definition? at hd ⊢
    rw [h]
    exact hd

theorem Good.of_module? (hw : Good w) (h : ∀ home, w'.module? home = w.module? home) :
    Good w' := by
  refine Good.next (later_of_module? h) ?_ ?_
  · intro home name v hv
    unfold World.definition? at hv
    rw [h] at hv
    exact hw.definitions hv
  · intro home name f hf
    unfold World.function? at hf
    rw [h] at hf
    exact hw.functions hf

end Worlds

section Changes

variable {w : World} {c : Context} {top : Bool} {name : Bytes} {e : Expr}

theorem bound_of_isDefinition (h : e.isDefinition = false) : e.bound = [] := by
  cases e with
  | define => exact Bool.noConfusion h
  | _ => rfl

theorem Stands.inside {place : Place} (h : Stands w c false place) : place = .inside := by
  cases place with
  | inside => rfl
  | _ => exact absurd h.1 Bool.false_ne_true

theorem Stands.outside {place : Place} (h : Stands w c top place) (hp : place ≠ .inside) :
    c.frame = [] ∧ (w.module? c.home).isSome := by
  cases place with
  | main => exact ⟨h.2.1, by rw [h.2.2]; rfl⟩
  | module => exact h.2
  | inside => exact absurd rfl hp

theorem Stands.ne_inside {place : Place} (h : Stands w c true place) : place ≠ .inside := by
  rintro rfl
  exact Bool.noConfusion h

theorem good_define (hw : Good w) (hm : (w.module? c.home).isSome) {v : Value}
    (hv : v.All (Sound w)) :
    (Good (w.update c.home (·.define name v)) ∧ Later w (w.update c.home (·.define name v))) ∧
      Leaves (w.update c.home (·.define name v)) c (.define name e) := by
  have hl : Later w (w.update c.home (·.define name v)) := by
    constructor
    · intro home h
      rw [World.module?_update]
      split <;> simp_all
    · intro home key h
      rw [World.definition?_define w hm]
      split
      · rfl
      · exact h
  refine ⟨⟨Good.next hl ?_ ?_, hl⟩, ?_⟩
  · intro home key u hu
    rw [World.definition?_define w hm] at hu
    split at hu
    · exact Option.some.inj hu ▸ hv
    · exact hw.definitions hu
  · intro home key f hf
    rw [World.function?_define] at hf
    exact hw.functions hf
  · intro key hkey
    obtain rfl := List.mem_singleton.mp hkey
    rw [World.definition?_define w hm, if_pos ⟨rfl, rfl⟩]
    rfl

theorem good_addClauses (hw : Good w) {exported : Bool} {clauses : List Clause}
    (hc : ∀ clause ∈ clauses, Runs w c.home [] clause) :
    Good (w.update c.home (·.addClauses name exported clauses)) ∧
      Later w (w.update c.home (·.addClauses name exported clauses)) := by
  have hl : Later w (w.update c.home (·.addClauses name exported clauses)) := by
    constructor
    · intro home h
      rw [World.module?_update]
      split <;> simp_all
    · intro home key h
      rw [World.definition?_addClauses]
      exact h
  refine ⟨Good.next hl ?_ ?_, hl⟩
  · intro home key v hv
    rw [World.definition?_addClauses] at hv
    exact hw.definitions hv
  · intro home key f hf clause hclause
    rcases World.mem_clauses_addClauses w hf hclause with ⟨g, hg, hmem⟩ | ⟨rfl, -, hmem⟩
    · exact hw.functions hg clause hmem
    · exact hc clause hmem

theorem good_ensureModule (hw : Good w) (name : Bytes) :
    Good (w.ensureModule name) ∧ Later w (w.ensureModule name) := by
  have hl : Later w (w.ensureModule name) := by
    constructor
    · intro home h
      rw [World.module?_ensureModule]
      split
      · rfl
      · exact h
    · intro home key h
      rw [World.definition?_ensureModule]
      exact h
  refine ⟨Good.next hl ?_ ?_, hl⟩
  · intro home key v hv
    rw [World.definition?_ensureModule] at hv
    exact hw.definitions hv
  · intro home key f hf
    rw [World.function?_ensureModule] at hf
    exact hw.functions hf

end Changes

section Fitting

variable {w : World} {c : Context} {top : Bool} {name : Bytes} {e : Expr} {es : List Expr}

theorem Fits.localRef (h : Fits w c top (.localRef name)) : Bound w c.home c.frame name := by
  obtain ⟨place, scope, hscoped, hreached, -⟩ := h
  cases hscoped with
  | localRef hname => exact hreached name hname
  | parts huniform => simp [Expr.isUniform] at huniform

theorem Fits.letNil (h : Fits w c top (.letIn [] e)) : Fits w c false e := by
  obtain ⟨place, scope, hscoped, hreached, -⟩ := h
  cases hscoped with
  | letNil hbody => exact ⟨.inside, scope, hbody, hreached, rfl⟩
  | parts huniform => simp [Expr.isUniform] at huniform

theorem Fits.letCons {b : Binding} {bs : List Binding}
    (h : Fits w c top (.letIn (b :: bs) e)) :
    Fits w c false b.value ∧ ∀ v, Fits w (Machine.bindValue c b.name v) false (.letIn bs e) := by
  obtain ⟨place, scope, hscoped, hreached, -⟩ := h
  cases hscoped with
  | letCons hvalue hrest =>
    exact ⟨⟨.inside, scope, hvalue, hreached, rfl⟩,
      fun v => ⟨.inside, _, hrest, hreached.cons b.name v, rfl⟩⟩
  | parts huniform => simp [Expr.isUniform] at huniform

theorem Fits.lambda {clause : Clause} (h : Fits w c top (.lambda clause)) :
    Runs w c.home c.frame clause := by
  obtain ⟨place, scope, hscoped, hreached, -⟩ := h
  cases hscoped with
  | lambda hclause => exact ⟨scope, hclause, hreached⟩
  | parts huniform => simp [Expr.isUniform] at huniform

theorem Fits.bodyCons (h : Fits w c false (.sequence (e :: es))) :
    Fits w c false e ∧ (e.isDefinition = false → Fits w c false (.sequence es)) := by
  obtain ⟨place, scope, hscoped, hreached, hstands⟩ := h
  cases hscoped with
  | sequenceCons hfirst hrest =>
    refine ⟨⟨place, scope, hfirst, hreached, hstands⟩, fun he => ?_⟩
    rw [bound_of_isDefinition he] at hrest
    exact ⟨place, scope, hrest, hreached, hstands⟩
  | parts huniform => simp [Expr.isUniform] at huniform

theorem Fits.bodyDefine (h : Fits w c false (.sequence (.define name e :: es))) (v : Value) :
    Fits w (Machine.bindValue c name v) false (.sequence es) := by
  obtain ⟨place, scope, hscoped, hreached, hstands⟩ := h
  obtain rfl := hstands.inside
  cases hscoped with
  | sequenceCons _ hrest => exact ⟨.inside, _, hrest, hreached.cons name v, rfl⟩
  | parts huniform => simp [Expr.isUniform] at huniform

-- At the top a definition goes to the module, so that what follows finds it there.
theorem Fits.topCons (h : Fits w c true (.sequence (e :: es))) :
    Fits w c true e ∧
      ∀ {w'}, Later w w' → Leaves w' c e → Fits w' c true (.sequence es) := by
  obtain ⟨place, scope, hscoped, hreached, hstands⟩ := h
  cases hscoped with
  | sequenceCons hfirst hrest =>
    refine ⟨⟨place, scope, hfirst, hreached, hstands⟩, fun hl hleaves => ?_⟩
    refine ⟨place, _, hrest, fun name hname => ?_, hstands.later hl⟩
    rcases List.mem_append.mp hname with hname | hname
    · exact Or.inr (isSome_definition?.mpr (Or.inl (hleaves name hname)))
    · exact (hreached name hname).later hl
  | parts huniform => simp [Expr.isUniform] at huniform

theorem Fits.defineFunction {exported : Bool} {clauses : List Clause}
    (h : Fits w c top (.defineFunction name exported clauses)) :
    ∀ clause ∈ clauses, Runs w c.home [] clause := by
  obtain ⟨place, scope, hscoped, hreached, hstands⟩ := h
  cases hscoped with
  | defineFunction hplace hclauses =>
    rw [(hstands.outside hplace).1] at hreached
    exact fun clause hc => ⟨scope, hclauses clause hc, hreached⟩
  | parts huniform => simp [Expr.isUniform] at huniform

theorem Fits.defineModule (h : Fits w c top (.defineModule name es)) (hw : Good w) :
    Fits (w.ensureModule name) ⟨.named name, [], c.depth⟩ true (.sequence es) := by
  obtain ⟨place, scope, hscoped, hreached, hstands⟩ := h
  cases hscoped with
  | defineModule hbody =>
    obtain ⟨-, hframe, hhome⟩ := hstands
    rw [hframe, hhome] at hreached
    refine ⟨.module, scope, hbody, fun key hkey => ?_, rfl, rfl, ?_⟩
    · have hmain : (w.definition? .main key).isSome := by
        rcases hreached key hkey with h | h
        · exact absurd h List.not_mem_nil
        · exact or_self_iff.mp (isSome_definition?.mp h)
      refine Or.inr (isSome_definition?.mpr (Or.inr ?_))
      exact (good_ensureModule hw name).2.definitions hmain
    · rw [World.module?_ensureModule, if_pos rfl]
      rfl
  | parts huniform => simp [Expr.isUniform] at huniform

end Fitting

theorem lookup_eq_none {frame : ValueFrame} {name : Bytes} (h : frame.lookup name = none) :
    name ∉ frame.map Prod.fst := by
  rw [List.lookup_eq_none_iff] at h
  intro hname
  obtain ⟨b, hb, rfl⟩ := List.mem_map.mp hname
  simpa using h b hb

theorem not_bound {w : World} {home : Home} {frame : ValueFrame} {name : Bytes}
    (hf : frame.lookup name = none) (hd : Machine.definition? w home name = none) :
    ¬ Bound w home frame name := by
  rintro (h | h)
  · exact lookup_eq_none hf h
  · rw [hd] at h
    exact Bool.noConfusion h

def Allowed (f : Fault) : Prop := ∀ name, f ≠ .unboundVariable name

def discipline : Discipline where
  Good := Good
  Later := Later
  Sound := Sound
  Allowed := Allowed
  later_refl := Later.refl
  later_trans := Later.trans
  sound_later := fun hl h => h.later hl
  sound_combined := by
    intro w p hp
    cases p with
    | closure => exact Bool.noConfusion hp
    | _ => trivial
  allowed := by
    rintro f hf name rfl
    simp [Fault.isInternal] at hf
  good_made := fun {w} n hw => hw.of_module? (w.module?_made n)
  later_made := fun w n => later_of_module? (w.module?_made n)
  good_print := fun {w} s hw => hw.of_module? (w.module?_print s)
  later_print := fun w s => later_of_module? (w.module?_print s)
  Fits := Fits
  Runs := Runs
  Leaves := Leaves
  fits_later := by
    rintro w w' c top e hl ⟨place, scope, hscoped, hreached, hstands⟩
    exact ⟨place, scope, hscoped, hreached.later hl, hstands.later hl⟩
  runs_later := fun hl h => h.later hl
  good_definition := fun hw h => hw.definitions h
  good_function := fun hw h => ⟨fun _ => trivial, hw.functions h⟩
  runs_closure := id
  fits_clause := by
    rintro w home frame frame' depth clause args e ⟨scope, hclause, hreached⟩ hmatch he
    exact ⟨.inside, _, hclause e he, hreached.matchAll? hmatch, rfl⟩
  fits_parts := by
    rintro w c top e x ⟨place, scope, hscoped, hreached, -⟩ hx
    exact ⟨.inside, scope, hscoped.of_parts hx, hreached, rfl⟩
  fits_localRef := fun _ h hf hd => absurd h.localRef (not_bound hf hd)
  fits_operation := fun _ _ _ => by simp [Allowed]
  fits_letNil := Fits.letNil
  fits_letCons := Fits.letCons
  fits_lambda := fun h _ => h.lambda
  fits_bodyCons := Fits.bodyCons
  fits_bodyDefine := Fits.bodyDefine
  fits_topCons := Fits.topCons
  leaves := by
    intro w c e he name hname
    rw [bound_of_isDefinition he] at hname
    exact absurd hname List.not_mem_nil
  define := by
    rintro w c name e v hw ⟨place, scope, -, -, hstands⟩ hv
    exact good_define hw (hstands.outside hstands.ne_inside).2 hv
  defineFunction := fun hw h => ⟨good_addClauses hw h.defineFunction, fun _ => trivial⟩
  defineModule := fun {_ _ _ name _} hw h => ⟨good_ensureModule hw name, h.defineModule hw⟩

theorem good_fresh : Good .fresh := by
  constructor
  · intro home name v hv
    obtain ⟨key, b, rfl⟩ := World.definition?_fresh hv
    exact Value.all_builtin.mpr trivial
  · intro home name f hf
    rw [World.function?_fresh] at hf
    exact absurd hf (Option.some_ne_none f).symm

end ClauseLisp.Scoping

namespace ClauseLisp.Machine

/-- A step in which a reference to a variable without a value does something else. -/
def stepOr (unbound : Bytes → Run Value) (limit : Nat) (machine : Machine) : Machine
  | .evaluate c _ (.localRef name) => do
    match c.frame.lookup name with
    | some v => pure v
    | none =>
      match ← Run.look (definition? · c.home name) with
      | some v => pure v
      | none => unbound name
  | task => step limit machine task

def performOr (unbound : Bytes → Run Value) (limit : Nat) : Nat → Machine
  | 0, _ => .exhaust
  | fuel + 1, task => stepOr unbound limit (performOr unbound limit fuel) task

theorem performOr_raise (limit fuel : Nat) :
    performOr (fun name => .raise (.unboundVariable name)) limit fuel = perform limit fuel := by
  induction fuel with
  | zero => rfl
  | succ fuel ih =>
    funext task
    rw [performOr, perform, ih]
    unfold stepOr
    split
    · rfl
    · rfl

theorem stepOr_eq_step {unbound : Bytes → Run Value} {limit : Nat} {machine : Machine} {w : World}
    {task : Task} (h : Scoping.discipline.Accepts w task) :
    stepOr unbound limit machine task w = step limit machine task w := by
  unfold stepOr
  split
  · rename_i c top name
    have hbound : Scoping.Bound w c.home c.frame name := h.2.localRef
    show _ = localReference c name w
    unfold localReference
    cases hf : c.frame.lookup name with
    | some v => rfl
    | none =>
      -- The definitions are looked up in the world at hand.
      show (match definition? w c.home name with
        | some v => (pure v : Run Value)
        | none => unbound name) w = (match definition? w c.home name with
        | some v => (pure v : Run Value)
        | none => .raise (.unboundVariable name)) w
      cases hd : definition? w c.home name with
      | some v => rfl
      | none => exact absurd hbound (Scoping.not_bound hf hd)
  · rfl

theorem machines_performOr (unbound : Bytes → Run Value) (limit fuel : Nat) :
    Scoping.discipline.Machines (perform limit fuel) (performOr unbound limit fuel) := by
  induction fuel with
  | zero => exact fun w task hw _ => Contract.agree_exhaust hw
  | succ fuel ih =>
    intro w task hw htask
    exact (Discipline.agree_step ih hw htask).after (Contract.next_refl hw) rfl
      (stepOr_eq_step htask)

end ClauseLisp.Machine
