import ClauseLisp.Proofs.Builtin.Replacement
import ClauseLisp.Proofs.Expr.Resolution
import ClauseLisp.Proofs.Machine.Growth

/-! Worlds with the names in them resolved: in the clauses of their functions, and in the closures
that their definitions hold. What is found in a resolved world is what was found before, resolved. -/

namespace ClauseLisp

mutual

/-- The names of a closure's frame hide those that are defined. -/
def Procedure.resolve (r : Resolver) : Procedure → Procedure
  | .closure id clause frame home =>
    .closure id (Expr.resolveClause r home (frame.map Prod.fst) clause)
      (Procedure.resolveFrame r frame) home
  | .function id home name => .function id home name
  | .builtin name b => .builtin name b
  | .composition id outer inner =>
    .composition id (Procedure.resolve r outer) (Procedure.resolve r inner)
  | .partialApplication id p arg =>
    .partialApplication id (Procedure.resolve r p) (Value.resolve r arg)
  | .constant id v => .constant id (Value.resolve r v)

def Procedure.resolveFrame (r : Resolver) : List (Bytes × Value) → List (Bytes × Value)
  | [] => []
  | (name, v) :: frame => (name, Value.resolve r v) :: Procedure.resolveFrame r frame

def Value.resolve (r : Resolver) : Value → Value
  | .list xs => .list (Value.resolveAll r xs)
  | .tuple xs => .tuple (Value.resolveAll r xs)
  | .map es => .map (Value.resolveEntries r es)
  | .procedure p => .procedure (Procedure.resolve r p)
  | v => v

def Value.resolveAll (r : Resolver) : List Value → List Value
  | [] => []
  | x :: xs => Value.resolve r x :: Value.resolveAll r xs

def Value.resolveEntries (r : Resolver) : List (Value × Value) → List (Value × Value)
  | [] => []
  | (k, v) :: es => (Value.resolve r k, Value.resolve r v) :: Value.resolveEntries r es

end

section Replaced

variable (r : Resolver)

mutual

theorem Value.resolve_eq_replace (v : Value) :
    Value.resolve r v = v.replace (Procedure.resolve r) := by
  match v with
  | .list xs | .tuple xs => rw [Value.resolve, Value.replace, Value.resolveAll_eq_replaceAll xs]
  | .map es => rw [Value.resolve, Value.replace, Value.resolveEntries_eq_replaceEntries es]
  | .procedure p => rw [Value.resolve, Value.replace]
  | .nil | .boolean _ | .integer _ | .float _ | .string _ | .tag _ => rfl

theorem Value.resolveAll_eq_replaceAll (xs : List Value) :
    Value.resolveAll r xs = Value.replaceAll (Procedure.resolve r) xs := by
  match xs with
  | [] => rfl
  | x :: xs =>
    rw [Value.resolveAll, Value.replaceAll, Value.resolve_eq_replace x,
      Value.resolveAll_eq_replaceAll xs]

theorem Value.resolveEntries_eq_replaceEntries (es : List (Value × Value)) :
    Value.resolveEntries r es = Value.replaceEntries (Procedure.resolve r) es := by
  match es with
  | [] => rfl
  | (k, v) :: es =>
    rw [Value.resolveEntries, Value.replaceEntries, Value.resolve_eq_replace k,
      Value.resolve_eq_replace v, Value.resolveEntries_eq_replaceEntries es]

end

theorem Procedure.resolveFrame_eq_replace (frame : ValueFrame) :
    Procedure.resolveFrame r frame = ValueFrame.replace (Procedure.resolve r) frame := by
  induction frame with
  | nil => rfl
  | cons b frame ih =>
    rw [Procedure.resolveFrame, ih, Value.resolve_eq_replace]
    rfl

theorem Procedure.faithful_resolve : Procedure.Faithful (Procedure.resolve r) where
  identity p := by cases p <;> rfl
  name p := by cases p <;> rfl

end Replaced

namespace Resolver

variable (r : Resolver)

abbrev value : Value → Value := Value.replace (Procedure.resolve r)

abbrev frame : ValueFrame → ValueFrame := ValueFrame.replace (Procedure.resolve r)

theorem value_list (xs : List Value) : r.value (.list xs) = .list (xs.map r.value) :=
  Value.replace_list xs

theorem value_tuple (xs : List Value) : r.value (.tuple xs) = .tuple (xs.map r.value) :=
  Value.replace_tuple xs

theorem resolve_partialApplication (id : Nat) (p : Procedure) (v : Value) :
    Procedure.resolve r (.partialApplication id p v) =
      .partialApplication id (Procedure.resolve r p) (r.value v) := by
  rw [Procedure.resolve, Value.resolve_eq_replace]

theorem resolve_constant (id : Nat) (v : Value) :
    Procedure.resolve r (.constant id v) = .constant id (r.value v) := by
  rw [Procedure.resolve, Value.resolve_eq_replace]

theorem resolve_closure (id : Nat) (clause : Clause) (frame : ValueFrame) (home : Home) :
    Procedure.resolve r (.closure id clause frame home) =
      .closure id (Expr.resolveClause r home (frame.map Prod.fst) clause) (r.frame frame) home := by
  rw [Procedure.resolve, Procedure.resolveFrame_eq_replace]

variable {r} in
theorem truthy_alike {v v' : Value} (h : r.value v = r.value v') : v.truthy = v'.truthy :=
  calc
    v.truthy = (r.value v).truthy := (Value.truthy_replace v).symm
    _ = (r.value v').truthy := congrArg Value.truthy h
    _ = v'.truthy := Value.truthy_replace v'

def function (home : Home) (f : Function) : Function :=
  ⟨f.exported, f.clauses.map (Expr.resolveClause r home [])⟩

def module (home : Home) (m : Module) : Module :=
  ⟨m.functions.map fun e => (e.1, r.function home e.2), m.definitions.map fun e => (e.1, r.value e.2)⟩

def world (w : World) : World :=
  ⟨r.module .main w.main, r.module .core w.core,
    w.modules.map fun e => (e.1, r.module (.named e.1) e.2), w.output, w.made⟩

end Resolver

namespace Table

variable {α β : Type} (g : Bytes → α → β)

theorem get?_map (t : Table α) (name : Bytes) :
    get? (t.map fun e => (e.1, g e.1 e.2)) name = (t.get? name).map (g name) := by
  induction t with
  | nil => rfl
  | cons e t ih =>
    obtain ⟨key, a⟩ := e
    rw [List.map_cons, get?_cons, get?_cons, ih]
    by_cases h : name = key <;> simp [h]

theorem map_set (t : Table α) (name : Bytes) (a : α) :
    (t.set name a).map (fun e => (e.1, g e.1 e.2)) =
      set (t.map fun e => (e.1, g e.1 e.2)) name (g name a) := by
  induction t with
  | nil => rfl
  | cons e t ih =>
    obtain ⟨key, b⟩ := e
    rw [set, List.map_cons, set]
    by_cases h : key = name
    · simp [h]
    · simp [h, ih]

end Table

namespace Resolver

variable (r : Resolver) (home : Home) (name : Bytes)

theorem function?_module (m : Module) :
    (r.module home m).function? name = (m.function? name).map (r.function home) :=
  Table.get?_map (fun _ => r.function home) _ _

theorem definition?_module (m : Module) :
    (r.module home m).definition? name = (m.definition? name).map r.value :=
  Table.get?_map (fun _ => r.value) _ _

theorem module?_world (w : World) : (r.world w).module? home = (w.module? home).map (r.module home) := by
  cases home with
  | main => rfl
  | core => rfl
  | named key => exact Table.get?_map (fun key => r.module (.named key)) _ _

theorem function?_world (w : World) :
    (r.world w).function? home name = (w.function? home name).map (r.function home) := by
  unfold World.function?
  rw [module?_world]
  cases w.module? home with
  | none => rfl
  | some m => exact r.function?_module home name m

theorem definition?_world (w : World) :
    (r.world w).definition? home name = (w.definition? home name).map r.value := by
  unfold World.definition?
  rw [module?_world]
  cases w.module? home with
  | none => rfl
  | some m => exact r.definition?_module home name m

theorem world_update (w : World) {f f' : Module → Module}
    (hf : ∀ m, r.module home (f m) = f' (r.module home m)) :
    r.world (w.update home f) = (r.world w).update home f' := by
  cases home with
  | main => simp only [World.update, world, hf]
  | core => simp only [World.update, world, hf]
  | named key =>
    have hget : (r.world w).modules.get? key = (w.modules.get? key).map (r.module (.named key)) :=
      Table.get?_map (fun key => r.module (.named key)) _ _
    cases hm : w.modules.get? key with
    | none =>
      rw [hm] at hget
      simp only [World.update, hm, hget, Option.map_none]
    | some m =>
      rw [hm] at hget
      simp only [World.update, hm, hget, Option.map_some, ← hf]
      simp only [world, Table.map_set fun key => r.module (.named key)]

theorem module_define (m : Module) (v : Value) :
    r.module home (m.define name v) = (r.module home m).define name (r.value v) := by
  simp only [module, Module.define, Table.map_set fun _ => r.value]

theorem module_addClauses (m : Module) (exported : Bool) (clauses : List Clause) :
    r.module home (m.addClauses name exported clauses) =
      (r.module home m).addClauses name exported
        (clauses.map (Expr.resolveClause r home [])) := by
  unfold Module.addClauses
  rw [function?_module]
  simp only [module, Table.map_set fun _ => r.function home]
  cases m.function? name with
  | none => simp [function]
  | some f => simp [function]

theorem world_define (w : World) (v : Value) :
    r.world (w.update home (·.define name v)) =
      (r.world w).update home (·.define name (r.value v)) :=
  r.world_update home w fun m => r.module_define home name m v

theorem world_addClauses (w : World) (exported : Bool) (clauses : List Clause) :
    r.world (w.update home (·.addClauses name exported clauses)) =
      (r.world w).update home
        (·.addClauses name exported (clauses.map (Expr.resolveClause r home []))) :=
  r.world_update home w fun m => r.module_addClauses home name m exported clauses

theorem world_ensureModule (w : World) :
    r.world (w.ensureModule name) = (r.world w).ensureModule name := by
  have hget : (r.world w).modules.get? name = (w.modules.get? name).map (r.module (.named name)) :=
    Table.get?_map (fun key => r.module (.named key)) _ _
  cases hm : w.modules.get? name with
  | none =>
    rw [hm] at hget
    simp only [World.ensureModule, hm, hget, Option.map_none]
    simp only [world, Table.map_set fun key => r.module (.named key)]
    rfl
  | some m =>
    rw [hm] at hget
    simp only [World.ensureModule, hm, hget, Option.map_some]

end Resolver
end ClauseLisp
