import ClauseLisp.Proofs.Machine.Discipline
import ClauseLisp.Proofs.World.Contents

/-! Worlds only grow. What is in the modules of a world stays there, whatever is evaluated and
however the evaluation ends, and the module of the builtin procedures stays as it is. -/

namespace ClauseLisp

structure Function.Grows (f f' : Function) : Prop where
  clauses : f.clauses <+: f'.clauses
  exported : f.exported = true → f'.exported = true

structure Module.Grows (m m' : Module) : Prop where
  functions : ∀ {name f}, m.function? name = some f →
    ∃ f', m'.function? name = some f' ∧ f.Grows f'
  definitions : ∀ {name}, (m.definition? name).isSome → (m'.definition? name).isSome

structure World.Grows (w w' : World) : Prop where
  modules : ∀ {home m}, w.module? home = some m → ∃ m', w'.module? home = some m' ∧ m.Grows m'
  output : w.output <+: w'.output

theorem Function.Grows.refl (f : Function) : f.Grows f := ⟨List.prefix_rfl, id⟩

theorem Function.Grows.trans {f g h : Function} (hfg : f.Grows g) (hgh : g.Grows h) : f.Grows h :=
  ⟨hfg.clauses.trans hgh.clauses, fun hf => hgh.exported (hfg.exported hf)⟩

namespace Module

variable {m m' m'' : Module}

theorem Grows.refl (m : Module) : m.Grows m := ⟨fun {_ f} hf => ⟨f, hf, .refl f⟩, id⟩

theorem Grows.trans (h : m.Grows m') (h' : m'.Grows m'') : m.Grows m'' := by
  constructor
  · intro name f hf
    obtain ⟨f', hf', hgrows⟩ := h.functions hf
    obtain ⟨f'', hf'', hgrows'⟩ := h'.functions hf'
    exact ⟨f'', hf'', hgrows.trans hgrows'⟩
  · exact fun hd => h'.definitions (h.definitions hd)

theorem grows_define (m : Module) (name : Bytes) (v : Value) : m.Grows (m.define name v) := by
  constructor
  · exact fun {_ f} hf => ⟨f, hf, .refl f⟩
  · intro key hkey
    rw [definition?_define]
    split
    · rfl
    · exact hkey

theorem grows_addClauses (m : Module) (name : Bytes) (exported : Bool) (clauses : List Clause) :
    m.Grows (m.addClauses name exported clauses) := by
  refine ⟨fun {key f} hf => ?_, id⟩
  rw [function?_addClauses]
  split
  · rename_i hkey
    -- The function that gets the clauses is the one that was found.
    rw [← hkey, hf]
    exact ⟨_, rfl, List.prefix_append _ _, fun hexported => by simp [hexported]⟩
  · exact ⟨f, hf, .refl f⟩

end Module

namespace World

variable {w w' w'' : World}

theorem grows_of_module? (hm : ∀ home, w'.module? home = w.module? home)
    (ho : w.output <+: w'.output) : w.Grows w' :=
  ⟨fun {home m} h => ⟨m, (hm home).trans h, .refl m⟩, ho⟩

theorem Grows.refl (w : World) : w.Grows w := grows_of_module? (fun _ => rfl) List.prefix_rfl

theorem Grows.trans (h : w.Grows w') (h' : w'.Grows w'') : w.Grows w'' := by
  refine ⟨fun {home m} hm => ?_, h.output.trans h'.output⟩
  obtain ⟨m', hm', hgrows⟩ := h.modules hm
  obtain ⟨m'', hm'', hgrows'⟩ := h'.modules hm'
  exact ⟨m'', hm'', hgrows.trans hgrows'⟩

theorem output_update (w : World) (home : Home) (f : Module → Module) :
    (w.update home f).output = w.output := by
  cases home with
  | named name => cases hm : w.modules.get? name <;> simp [update, hm]
  | _ => rfl

theorem output_ensureModule (w : World) (name : Bytes) :
    (w.ensureModule name).output = w.output := by
  cases hm : w.modules.get? name <;> simp [ensureModule, hm]

theorem grows_update (w : World) (home : Home) {f : Module → Module}
    (hf : ∀ m : Module, m.Grows (f m)) : w.Grows (w.update home f) := by
  refine ⟨fun {other m} hm => ?_, (output_update w home f).symm ▸ List.prefix_rfl⟩
  rw [module?_update]
  split
  · rename_i ho
    rw [← ho, hm]
    exact ⟨f m, rfl, hf m⟩
  · exact ⟨m, hm, .refl m⟩

theorem grows_ensureModule (w : World) (name : Bytes) : w.Grows (w.ensureModule name) := by
  refine ⟨fun {home m} hm => ?_, (output_ensureModule w name).symm ▸ List.prefix_rfl⟩
  rw [module?_ensureModule, hm]
  split <;> exact ⟨m, rfl, .refl m⟩

end World

def growing : Discipline where
  Good := fun _ => True
  Later := World.Grows
  Sound := fun _ _ => True
  Allowed := fun _ => True
  later_refl := World.Grows.refl
  later_trans := World.Grows.trans
  sound_later := fun _ _ => trivial
  sound_combined := fun _ => trivial
  allowed := fun _ => trivial
  good_made := fun _ _ => trivial
  later_made := fun w n => World.grows_of_module? (w.module?_made n) List.prefix_rfl
  good_print := fun _ _ => trivial
  later_print := fun w s => World.grows_of_module? (w.module?_print s) (List.prefix_append _ _)
  Fits := fun _ _ _ _ => True
  Runs := fun _ _ _ _ => True
  Leaves := fun _ _ _ => True
  fits_later := fun _ _ => trivial
  runs_later := fun _ _ => trivial
  good_definition := fun _ _ _ _ => trivial
  good_function := fun _ _ => ⟨fun _ => trivial, fun _ _ => trivial⟩
  runs_closure := fun _ => trivial
  fits_clause := fun _ _ _ => trivial
  fits_parts := fun _ _ => trivial
  fits_localRef := fun _ _ _ _ => trivial
  fits_operation := fun _ _ _ => trivial
  fits_letNil := fun _ => trivial
  fits_letCons := fun _ => ⟨trivial, fun _ => trivial⟩
  fits_lambda := fun _ _ => trivial
  fits_bodyCons := fun _ => ⟨trivial, fun _ => trivial⟩
  fits_bodyDefine := fun _ _ => trivial
  fits_topCons := fun _ => ⟨trivial, fun _ _ => trivial⟩
  leaves := fun _ => trivial
  define := fun {w c name _ v} _ _ _ =>
    ⟨⟨trivial, w.grows_update c.home fun m => m.grows_define name v⟩, trivial⟩
  defineFunction := fun {w c _ name exported clauses} _ _ =>
    ⟨⟨trivial, w.grows_update c.home fun m => m.grows_addClauses name exported clauses⟩,
      fun _ => trivial⟩
  defineModule := fun {w _ _ name _} _ _ => ⟨⟨trivial, w.grows_ensureModule name⟩, trivial⟩

def Procedure.Outside : Procedure → Prop
  | closure _ _ _ home => home ≠ .core
  | function _ home _ => home ≠ .core
  | _ => True

def World.Sealed (w : World) : Prop :=
  w.Holds Procedure.Outside fun home _ => home ≠ .core

def Context.Sealed (c : Context) : Prop :=
  c.home ≠ .core ∧ ∀ b ∈ c.frame, b.2.All Procedure.Outside

theorem World.sealed_fresh : fresh.Sealed := holds_fresh fun _ _ => trivial

theorem World.core_update (w : World) {home : Home} (h : home ≠ .core) (f : Module → Module) :
    (w.update home f).core = w.core := by
  cases home with
  | main => rfl
  | core => exact absurd rfl h
  | named name => cases hm : w.modules.get? name <;> simp [update, hm]

theorem World.core_ensureModule (w : World) (name : Bytes) :
    (w.ensureModule name).core = w.core := by
  cases hm : w.modules.get? name <;> simp [ensureModule, hm]

def sealing (core : Module) : Discipline where
  Good := fun w => w.Sealed ∧ w.core = core
  Later := fun w w' => w'.core = w.core
  Sound := fun _ => Procedure.Outside
  Allowed := fun _ => True
  later_refl := fun _ => rfl
  later_trans := fun h h' => h'.trans h
  sound_later := fun _ h => h
  sound_combined := by
    intro w p hp
    cases p with
    | closure => exact Bool.noConfusion hp
    | function => exact Bool.noConfusion hp
    | _ => trivial
  allowed := fun _ => trivial
  good_made := fun {w} n hw => ⟨hw.1.of_module? (w.module?_made n), hw.2⟩
  later_made := fun _ _ => rfl
  good_print := fun {w} s hw => ⟨hw.1.of_module? (w.module?_print s), hw.2⟩
  later_print := fun _ _ => rfl
  Fits := fun _ c _ _ => c.home ≠ .core
  Runs := fun _ home _ _ => home ≠ .core
  Leaves := fun _ _ _ => True
  fits_later := fun _ h => h
  runs_later := fun _ h => h
  good_definition := fun hw h => hw.1.definitions h
  good_function := fun hw h => hw.1.functions h
  runs_closure := id
  fits_clause := fun h _ _ => h
  fits_parts := fun h _ => h
  fits_localRef := fun _ _ _ _ => trivial
  fits_operation := fun _ _ _ => trivial
  fits_letNil := id
  fits_letCons := fun h => ⟨h, fun _ => h⟩
  fits_lambda := fun h _ => h
  fits_bodyCons := fun h => ⟨h, fun _ => h⟩
  fits_bodyDefine := fun h _ => h
  fits_topCons := fun h => ⟨h, fun _ _ => h⟩
  leaves := fun _ => trivial
  define := fun {w _ _ _ _} hw h hv =>
    ⟨⟨⟨hw.1.define hv, (w.core_update h _).trans hw.2⟩, w.core_update h _⟩, trivial⟩
  defineFunction := fun {w _ _ _ _ _} hw h =>
    ⟨⟨⟨hw.1.addClauses (fun _ => h) fun _ _ => h, (w.core_update h _).trans hw.2⟩,
      w.core_update h _⟩, fun _ => h⟩
  defineModule := fun {w _ _ name _} hw _ =>
    ⟨⟨⟨hw.1.ensureModule name, (w.core_ensureModule name).trans hw.2⟩,
      w.core_ensureModule name⟩, by simp⟩

namespace Machine

variable (limit fuel : Nat) (c : Context) (top : Bool) (e : Expr) (w : World)

theorem grows_evaluate : w.Grows (perform limit fuel (.evaluate c top e) w).2 := by
  have haccepts : growing.Accepts w (.evaluate c top e) := ⟨fun _ _ _ _ => trivial, trivial⟩
  exact (growing.machines_perform limit fuel w _ trivial haccepts).next.2

variable {w c}

theorem sealed_evaluate (hw : w.Sealed) (hc : c.Sealed) :
    (perform limit fuel (.evaluate c top e) w).2.core = w.core ∧
      (perform limit fuel (.evaluate c top e) w).2.Sealed ∧
      ∀ v, (perform limit fuel (.evaluate c top e) w).1 = .value v → v.All Procedure.Outside := by
  have haccepts : (sealing w.core).Accepts w (.evaluate c top e) := ⟨hc.2, hc.1⟩
  have hagree := (sealing w.core).machines_perform limit fuel w _ ⟨hw, rfl⟩ haccepts
  refine ⟨hagree.next.2, hagree.next.1.1, fun v hv => ?_⟩
  have hends := hagree.ends
  rw [hv] at hends
  exact hends.1

variable (w c)

/-- Whatever is evaluated, and however it ends: no module is lost, functions keep their clauses in
front of new ones and stay exported, definitions stay defined, and printed text stays printed. The
builtin procedures stay as they are in every world in which no procedure runs in their module. That
is so at first, and it is so after every evaluation that starts in another module. -/
theorem evaluate_only_grows :
    w.Grows (perform limit fuel (.evaluate c top e) w).2 ∧
      World.fresh.Sealed ∧
      (w.Sealed → c.Sealed →
        (perform limit fuel (.evaluate c top e) w).2.core = w.core ∧
          (perform limit fuel (.evaluate c top e) w).2.Sealed ∧
          ∀ v, (perform limit fuel (.evaluate c top e) w).1 = .value v →
            v.All Procedure.Outside) :=
  ⟨grows_evaluate limit fuel c top e w, World.sealed_fresh, sealed_evaluate limit fuel top e⟩

theorem evaluate_only_grows_failedModule :
    let clause : Clause := ⟨.unknown, [.wildcard], [], .literal .nil⟩
    let w := World.fresh.update .main (·.addClauses (utf8 "f") true [clause])
    let c : Context := ⟨.main, [], 0⟩
    let e : Expr := .sequence [.defineFunction (utf8 "f") false [clause],
      .defineModule coreName [.define (utf8 "map") (.literal .nil), .cond .unknown []]]
    let after := perform 1000 4 (.evaluate c true e) w
    w.Sealed ∧ c.Sealed ∧
      after.1 = .fault (.noBranch .unknown) ∧
      after.2.function? .main (utf8 "f") = some ⟨true, [clause, clause]⟩ ∧
      after.2.definition? (.named coreName) (utf8 "map") = some .nil ∧
      w.Grows after.2 ∧ after.2.core = w.core ∧ after.2.Sealed := by
  intro clause w c e after
  have hw : w.Sealed := World.sealed_fresh.addClauses (by simp [Procedure.Outside]) (by simp)
  have hc : c.Sealed := ⟨by simp [c], List.forall_mem_nil _⟩
  obtain ⟨hgrows, -, hsealed⟩ := evaluate_only_grows 1000 4 c true e w
  obtain ⟨hcore, hafter, -⟩ := hsealed hw hc
  exact ⟨hw, hc, rfl, rfl, rfl, hgrows, hcore, hafter⟩

end Machine
end ClauseLisp
