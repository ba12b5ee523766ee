import ClauseLisp.Value

/-! The world a program runs in: modules with functions and definitions, the text printed so far,
and the number of procedures made. -/

namespace ClauseLisp

abbrev Table (α : Type) := List (Bytes × α)

namespace Table

variable {α : Type}

def get? (t : Table α) (name : Bytes) : Option α := t.lookup name

def set : Table α → Bytes → α → Table α
  | [], name, a => [(name, a)]
  | (key, b) :: t, name, a => if key = name then (key, a) :: t else (key, b) :: set t name a

theorem get?_nil (name : Bytes) : get? ([] : Table α) name = none := rfl

theorem get?_cons (key name : Bytes) (b : α) (t : Table α) :
    get? ((key, b) :: t) name = if name = key then some b else get? t name := by
  by_cases h : name = key
  · simp [get?, h]
  · simp [get?, List.lookup_cons, h, beq_eq_false_iff_ne.mpr h]

theorem get?_set_self (t : Table α) (name : Bytes) (a : α) : (t.set name a).get? name = some a := by
  fun_induction set t name a <;> simp_all [get?_cons, Ne.symm]

theorem get?_set_of_ne (t : Table α) {name other : Bytes} (a : α) (h : other ≠ name) :
    (t.set name a).get? other = t.get? other := by
  fun_induction set t name a <;> simp_all [get?_cons, get?_nil]

end Table

structure Function where
  exported : Bool
  clauses : List Clause

structure Module where
  functions : Table Function
  definitions : Table Value

namespace Module

def empty : Module := ⟨[], []⟩

def function? (m : Module) (name : Bytes) : Option Function := m.functions.get? name

def definition? (m : Module) (name : Bytes) : Option Value := m.definitions.get? name

/-- Adds clauses after those a function has. A function stays exported once it is. -/
def addClauses (m : Module) (name : Bytes) (exported : Bool) (clauses : List Clause) : Module :=
  let old := (m.function? name).getD ⟨false, []⟩
  { m with functions := m.functions.set name ⟨old.exported || exported, old.clauses ++ clauses⟩ }

def define (m : Module) (name : Bytes) (v : Value) : Module :=
  { m with definitions := m.definitions.set name v }

def core : Module :=
  { functions := []
    definitions := Builtin.table.foldl
      (fun t (name, b) => t.set name (.procedure (.builtin name b))) [] }

end Module

structure World where
  main : Module
  core : Module
  modules : Table Module
  output : Bytes
  made : Nat

namespace World

def fresh : World := ⟨.empty, .core, [], [], 0⟩

def module? (w : World) : Home → Option Module
  | .main => some w.main
  | .core => some w.core
  | .named name => w.modules.get? name

def function? (w : World) (home : Home) (name : Bytes) : Option Function :=
  (w.module? home).bind (·.function? name)

def definition? (w : World) (home : Home) (name : Bytes) : Option Value :=
  (w.module? home).bind (·.definition? name)

def update (w : World) (home : Home) (f : Module → Module) : World :=
  match home with
  | .main => { w with main := f w.main }
  | .core => { w with core := f w.core }
  | .named name =>
    match w.modules.get? name with
    | some m => { w with modules := w.modules.set name (f m) }
    | none => w

def ensureModule (w : World) (name : Bytes) : World :=
  match w.modules.get? name with
  | some _ => w
  | none => { w with modules := w.modules.set name .empty }

def print (w : World) (s : Bytes) : World := { w with output := w.output ++ s }

end World

def coreName : Bytes := utf8 "Core"

def Home.name : Home → Bytes
  | main => utf8 "main"
  | core => coreName
  | named name => name

end ClauseLisp
