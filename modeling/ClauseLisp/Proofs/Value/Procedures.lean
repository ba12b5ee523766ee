import ClauseLisp.Pattern.Match

/-! The procedures inside values. A property of procedures is carried by a value if all of them have
it; matching and taking values apart keep it. -/

namespace ClauseLisp

mutual

def Value.procedures : Value → List Procedure
  | .list xs => proceduresAll xs
  | .tuple xs => proceduresAll xs
  | .map es => proceduresEntries es
  | .procedure p => p.parts
  | _ => []

def Procedure.parts : Procedure → List Procedure
  | .closure id clause frame home => .closure id clause frame home :: proceduresFrame frame
  | .composition id outer inner => .composition id outer inner :: (outer.parts ++ inner.parts)
  | .partialApplication id p arg => .partialApplication id p arg :: (p.parts ++ arg.procedures)
  | .constant id v => .constant id v :: v.procedures
  | .function id home name => [.function id home name]
  | .builtin name b => [.builtin name b]

def proceduresAll : List Value → List Procedure
  | [] => []
  | x :: xs => x.procedures ++ proceduresAll xs

def proceduresEntries : List (Value × Value) → List Procedure
  | [] => []
  | (k, v) :: es => k.procedures ++ v.procedures ++ proceduresEntries es

def proceduresFrame : List (Bytes × Value) → List Procedure
  | [] => []
  | (_, v) :: es => v.procedures ++ proceduresFrame es

end

attribute [simp] Value.procedures Procedure.parts proceduresAll proceduresEntries proceduresFrame

theorem mem_proceduresAll {xs : List Value} {p : Procedure} :
    p ∈ proceduresAll xs ↔ ∃ x ∈ xs, p ∈ x.procedures := by
  induction xs with
  | nil => simp
  | cons x xs ih => simp [ih]

theorem mem_proceduresEntries {es : List (Value × Value)} {p : Procedure} :
    p ∈ proceduresEntries es ↔ ∃ e ∈ es, p ∈ e.1.procedures ∨ p ∈ e.2.procedures := by
  induction es with
  | nil => simp
  | cons e es ih => simp [ih, or_assoc]

theorem mem_proceduresFrame {f : ValueFrame} {p : Procedure} :
    p ∈ proceduresFrame f ↔ ∃ e ∈ f, p ∈ e.2.procedures := by
  induction f with
  | nil => simp
  | cons e f ih => simp [ih]

namespace Value

def All (P : Procedure → Prop) (v : Value) : Prop := ∀ p ∈ v.procedures, P p

section All

variable {P Q : Procedure → Prop}

theorem All.mono (h : ∀ p, P p → Q p) {v : Value} (hv : v.All P) : v.All Q :=
  fun p hp => h p (hv p hp)

@[simp] theorem all_nil : nil.All P := by simp [All]

@[simp] theorem all_boolean (b : Bool) : (boolean b).All P := by simp [All]

@[simp] theorem all_integer (i : Int64) : (integer i).All P := by simp [All]

@[simp] theorem all_float (d : Binary64) : (float d).All P := by simp [All]

@[simp] theorem all_string (s : Bytes) : (string s).All P := by simp [All]

@[simp] theorem all_tag (name : Bytes) : (tag name).All P := by simp [All]

@[simp] theorem all_list {xs : List Value} : (list xs).All P ↔ ∀ x ∈ xs, x.All P := by
  simp only [All, procedures, mem_proceduresAll]
  grind

@[simp] theorem all_tuple {xs : List Value} : (tuple xs).All P ↔ ∀ x ∈ xs, x.All P := by
  simp only [All, procedures, mem_proceduresAll]
  grind

@[simp] theorem all_map {es : List (Value × Value)} :
    (map es).All P ↔ ∀ e ∈ es, e.1.All P ∧ e.2.All P := by
  simp only [All, procedures, mem_proceduresEntries]
  constructor
  · intro h e he
    exact ⟨fun p hp => h p ⟨e, he, Or.inl hp⟩, fun p hp => h p ⟨e, he, Or.inr hp⟩⟩
  · rintro h p ⟨e, he, hp | hp⟩
    · exact (h e he).1 p hp
    · exact (h e he).2 p hp

@[simp] theorem all_function {id : Nat} {home : Home} {name : Bytes} :
    (procedure (.function id home name)).All P ↔ P (.function id home name) := by
  simp [All]

@[simp] theorem all_builtin {name : Bytes} {b : Builtin} :
    (procedure (.builtin name b)).All P ↔ P (.builtin name b) := by
  simp [All]

theorem all_closure {id : Nat} {clause : Clause} {frame : ValueFrame} {home : Home} :
    (procedure (.closure id clause frame home)).All P ↔
      P (.closure id clause frame home) ∧ ∀ e ∈ frame, e.2.All P := by
  simp only [All, procedures, Procedure.parts, List.forall_mem_cons, mem_proceduresFrame]
  constructor
  · rintro ⟨hp, h⟩
    exact ⟨hp, fun e he p hp => h p ⟨e, he, hp⟩⟩
  · rintro ⟨hp, h⟩
    refine ⟨hp, ?_⟩
    rintro p ⟨e, he, hp⟩
    exact h e he p hp

theorem all_composition {id : Nat} {outer inner : Procedure} :
    (procedure (.composition id outer inner)).All P ↔
      P (.composition id outer inner) ∧ (procedure outer).All P ∧ (procedure inner).All P := by
  simp only [All, procedures, Procedure.parts, List.mem_cons, List.mem_append]
  grind

theorem all_partialApplication {id : Nat} {p : Procedure} {arg : Value} :
    (procedure (.partialApplication id p arg)).All P ↔
      P (.partialApplication id p arg) ∧ (procedure p).All P ∧ arg.All P := by
  simp only [All, procedures, Procedure.parts, List.mem_cons, List.mem_append]
  grind

theorem all_constant {id : Nat} {v : Value} :
    (procedure (.constant id v)).All P ↔ P (.constant id v) ∧ v.All P := by
  simp only [All, procedures, Procedure.parts, List.mem_cons]
  grind

end All

end Value

mutual

theorem Datum.all_toValue (P : Procedure → Prop) (d : Datum) : d.toValue.All P := by
  match d with
  | .nil | .boolean _ | .integer _ | .float _ | .string _ | .tag _ => simp [Datum.toValue]
  | .list ds =>
    rw [Datum.toValue, Value.all_list]
    exact Datum.all_toValues P ds
  | .tuple ds =>
    rw [Datum.toValue, Value.all_tuple]
    exact Datum.all_toValues P ds

theorem Datum.all_toValues (P : Procedure → Prop) (ds : List Datum) :
    ∀ v ∈ Datum.toValues ds, v.All P := by
  match ds with
  | [] => simp [Datum.toValues]
  | d :: ds =>
    rw [Datum.toValues, List.forall_mem_cons]
    exact ⟨Datum.all_toValue P d, Datum.all_toValues P ds⟩

end

namespace Pattern

def Extends (names : List Bytes) (vs : List Value) (f f' : ValueFrame) : Prop :=
  ∃ bs : ValueFrame, f' = bs.reverse ++ f ∧ bs.map Prod.fst = names ∧
    ∀ P, (∀ v ∈ vs, v.All P) → ∀ b ∈ bs, b.2.All P

theorem extends_nil (vs : List Value) (f : ValueFrame) : Extends [] vs f f :=
  ⟨[], rfl, rfl, by simp⟩

theorem Extends.trans {ns ms : List Bytes} {vs us ws : List Value} {f g h : ValueFrame}
    (hf : Extends ns vs f g) (hg : Extends ms us g h)
    (hws : ∀ P, (∀ v ∈ ws, v.All P) → (∀ v ∈ vs, v.All P) ∧ ∀ v ∈ us, v.All P) :
    Extends (ns ++ ms) ws f h := by
  obtain ⟨bs, rfl, rfl, hbs⟩ := hf
  obtain ⟨cs, rfl, rfl, hcs⟩ := hg
  refine ⟨bs ++ cs, by simp, by simp, ?_⟩
  intro P hP b hb
  rcases List.mem_append.mp hb with hb | hb
  · exact hbs P (hws P hP).1 b hb
  · exact hcs P (hws P hP).2 b hb

theorem Extends.of_parts {ns : List Bytes} {vs ws : List Value} {f f' : ValueFrame}
    (h : Extends ns vs f f') (hws : ∀ P, (∀ v ∈ ws, v.All P) → ∀ v ∈ vs, v.All P) :
    Extends ns ws f f' := by
  obtain ⟨bs, hf, hns, hbs⟩ := h
  exact ⟨bs, hf, hns, fun P hP => hbs P (hws P hP)⟩

mutual

theorem extends_of_match? {p : Pattern} {v : Value} {f f' : ValueFrame}
    (h : match? p v f = some f') : Extends p.names [v] f f' := by
  match p with
  | .variable name =>
    obtain rfl := Option.some.inj h
    exact ⟨[(name, v)], rfl, rfl, by simp⟩
  | .wildcard =>
    obtain rfl := Option.some.inj h
    exact extends_nil _ _
  | .literal d =>
    obtain ⟨-, rfl⟩ : d.toValue.equal v = true ∧ f = f' := by simpa [match?] using h
    exact extends_nil _ _
  | .list ps none =>
    cases v with
    | list vs =>
      have hps := extends_of_matchAll? h
      exact hps.of_parts (by simp)
    | _ => simp [match?] at h
  | .list ps (some rest) =>
    cases v with
    | list vs =>
      simp only [match?, Option.ite_none_left_eq_some] at h
      obtain ⟨g, hps, hrest⟩ := Option.bind_eq_some_iff.mp h.2
      refine (extends_of_matchAll? hps).trans (extends_of_match? hrest) ?_
      intro P hP
      have hvs : ∀ v ∈ vs, v.All P := by simpa using hP
      refine ⟨fun v hv => hvs v (List.mem_of_mem_take hv), ?_⟩
      simpa using fun v hv => hvs v (List.mem_of_mem_drop hv)
    | _ => simp [match?] at h
  | .tuple ps =>
    cases v with
    | tuple vs =>
      have hps := extends_of_matchAll? h
      exact hps.of_parts (by simp)
    | _ => simp [match?] at h

theorem extends_of_matchAll? {ps : List Pattern} {vs : List Value} {f f' : ValueFrame}
    (h : matchAll? ps vs f = some f') : Extends (namesAll ps) vs f f' := by
  match ps, vs with
  | [], [] =>
    obtain rfl := Option.some.inj h
    exact extends_nil _ _
  | p :: ps, v :: vs =>
    obtain ⟨g, hp, hps⟩ := Option.bind_eq_some_iff.mp h
    exact (extends_of_match? hp).trans (extends_of_matchAll? hps) (by simp)
  | [], v :: vs => simp [matchAll?] at h
  | p :: ps, [] => simp [matchAll?] at h

end

theorem Extends.all {ns : List Bytes} {vs : List Value} {f f' : ValueFrame} {P : Procedure → Prop}
    (h : Extends ns vs f f') (hvs : ∀ v ∈ vs, v.All P) (hf : ∀ e ∈ f, e.2.All P) :
    ∀ e ∈ f', e.2.All P := by
  obtain ⟨bs, rfl, -, hbs⟩ := h
  intro e he
  rcases List.mem_append.mp he with he | he
  · exact hbs P hvs e (List.mem_reverse.mp he)
  · exact hf e he

theorem Extends.mem_names {ns : List Bytes} {vs : List Value} {f f' : ValueFrame}
    (h : Extends ns vs f f') {name : Bytes} :
    name ∈ f'.map Prod.fst ↔ name ∈ ns ∨ name ∈ f.map Prod.fst := by
  obtain ⟨bs, rfl, rfl, -⟩ := h
  rw [List.map_append, List.map_reverse, List.mem_append, List.mem_reverse]

end Pattern
end ClauseLisp
