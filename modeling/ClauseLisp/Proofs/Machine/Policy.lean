import ClauseLisp.Proofs.Expr.Shape
import ClauseLisp.Proofs.Machine.Discipline
import ClauseLisp.Proofs.World.Contents

/-! Policies for programs. A policy asks something of every expression inside of a program, given
the module around it, and says what this comes to for the functions of the world. Programs that
follow a policy make a discipline: all that they leave behind follows it again. -/

namespace ClauseLisp

structure Policy where
  Node : Home → Expr → Prop
  Functions : World → Prop
  node_letIn : ∀ {home bindings body}, Node home (.letIn bindings body)
  node_sequence : ∀ {home es}, Node home (.sequence es)
  functions_of_eq : ∀ {w w'}, (∀ home name, w'.function? home name = w.function? home name) →
    Functions w → Functions w'
  functions_addClauses : ∀ {w home name exported clauses}, Functions w → home ≠ .core →
    Node home (.defineFunction name exported clauses) →
    Functions (w.update home (·.addClauses name exported clauses))

def Expr.homeInside (home : Home) : Expr → Home
  | defineModule name _ => .named name
  | _ => home

inductive Expr.Follows (P : Policy) : Home → Expr → Prop where
  | node {home : Home} {e : Expr} : P.Node home e →
    (∀ x ∈ e.children, Follows P (e.homeInside home) x) → Follows P home e

def Clause.Follows (P : Policy) (home : Home) (clause : Clause) : Prop :=
  home ≠ .core ∧ ∀ e ∈ clause.body :: clause.guards, e.Follows P home

def Procedure.Follows (P : Policy) : Procedure → Prop
  | closure _ clause _ home => clause.Follows P home
  | _ => True

structure World.Follows (P : Policy) (w : World) : Prop where
  holds : w.Holds (Procedure.Follows P) (Clause.Follows P)
  functions : P.Functions w

namespace Expr

variable {P : Policy} {home : Home} {e x : Expr} {es : List Expr}

theorem Follows.self (h : e.Follows P home) : P.Node home e := by
  cases h with
  | node hnode _ => exact hnode

theorem Follows.inside (h : e.Follows P home) (hx : x ∈ e.children) :
    x.Follows P (e.homeInside home) := by
  cases h with
  | node _ hchildren => exact hchildren x hx

theorem Follows.part (h : e.Follows P home) (hx : x ∈ e.parts) : x.Follows P home := by
  cases e with
  | letIn | lambda | defineFunction | sequence | defineModule => exact absurd hx List.not_mem_nil
  | _ => exact h.inside hx

theorem follows_sequence : (sequence es).Follows P home ↔ ∀ e ∈ es, e.Follows P home :=
  ⟨fun h _ he => h.inside he, fun h => .node P.node_sequence h⟩

theorem follows_letIn {bs : List Binding} :
    (letIn bs e).Follows P home ↔ e.Follows P home ∧ ∀ b ∈ bs, b.value.Follows P home := by
  have hchildren : (letIn bs e).Follows P home ↔
      ∀ x ∈ e :: bs.map Binding.value, x.Follows P home :=
    ⟨fun h _ hx => h.inside hx, fun h => .node P.node_letIn h⟩
  rw [hchildren, List.forall_mem_cons, List.forall_mem_map]

def checks (check : Home → Expr → Bool) : Nat → Home → Expr → Bool
  | 0, _, _ => false
  | n + 1, home, e => check home e && e.children.all (checks check n (e.homeInside home))

theorem follows_of_checks (check : Home → Expr → Bool) (n : Nat)
    (hcheck : ∀ home e, check home e = true → P.Node home e)
    (h : checks check n home e = true) : e.Follows P home := by
  induction n generalizing home e with
  | zero => exact Bool.noConfusion h
  | succ n ih =>
    rw [checks, Bool.and_eq_true, List.all_eq_true] at h
    exact .node (hcheck home e h.1) fun x hx => ih (h.2 x hx)

end Expr

namespace World

variable {P : Policy} {w w' : World} {home : Home} {name : Bytes}

theorem follows_fresh (h : P.Functions fresh) : fresh.Follows P :=
  ⟨holds_fresh fun _ _ => trivial, h⟩

theorem Follows.of_module? (hw : w.Follows P) (h : ∀ home, w'.module? home = w.module? home) :
    w'.Follows P := by
  refine ⟨hw.holds.of_module? h, P.functions_of_eq (fun home name => ?_) hw.functions⟩
  unfold function?
  rw [h]

theorem Follows.ensureModule (hw : w.Follows P) (name : Bytes) : (w.ensureModule name).Follows P :=
  ⟨hw.holds.ensureModule name, P.functions_of_eq (w.function?_ensureModule name) hw.functions⟩

theorem Follows.define (hw : w.Follows P) {v : Value} (hv : v.All (Procedure.Follows P)) :
    (w.update home (·.define name v)).Follows P :=
  ⟨hw.holds.define hv, P.functions_of_eq (w.function?_define home name v) hw.functions⟩

theorem Follows.addClauses (hw : w.Follows P) {exported : Bool} {clauses : List Clause}
    (hhome : home ≠ .core) (h : (Expr.defineFunction name exported clauses).Follows P home) :
    (w.update home (·.addClauses name exported clauses)).Follows P := by
  have hclauses : ∀ clause ∈ clauses, clause.Follows P home := by
    intro clause hclause
    refine ⟨hhome, fun e he => ?_⟩
    exact h.inside (List.mem_flatMap.mpr ⟨clause, hclause, he⟩)
  constructor
  · exact hw.holds.addClauses (fun _ => trivial) hclauses
  · exact P.functions_addClauses hw.functions hhome h.self

end World

def Policy.discipline (P : Policy) : Discipline where
  Good := World.Follows P
  Later := fun _ _ => True
  Sound := fun _ => Procedure.Follows P
  Allowed := fun _ => True
  later_refl := fun _ => trivial
  later_trans := fun _ _ => trivial
  sound_later := fun _ h => h
  sound_combined := by
    intro w p hp
    cases p with
    | closure => exact Bool.noConfusion hp
    | _ => trivial
  allowed := fun _ => trivial
  good_made := fun {w} n hw => hw.of_module? (w.module?_made n)
  later_made := fun _ _ => trivial
  good_print := fun {w} s hw => hw.of_module? (w.module?_print s)
  later_print := fun _ _ => trivial
  Fits := fun _ c _ e => c.home ≠ .core ∧ e.Follows P c.home
  Runs := fun _ home _ clause => clause.Follows P home
  Leaves := fun _ _ _ => True
  fits_later := fun _ h => h
  runs_later := fun _ h => h
  good_definition := fun hw h => hw.holds.definitions h
  good_function := fun hw h => hw.holds.functions h
  runs_closure := id
  fits_clause := fun h _ he => ⟨h.1, h.2 _ he⟩
  fits_parts := fun h hx => ⟨h.1, h.2.part hx⟩
  fits_localRef := fun _ _ _ _ => trivial
  fits_operation := fun _ _ _ => trivial
  fits_letNil := fun h => ⟨h.1, (Expr.follows_letIn.mp h.2).1⟩
  fits_letCons := by
    rintro w c top b bs body ⟨hhome, h⟩
    obtain ⟨hbody, hvalues⟩ := Expr.follows_letIn.mp h
    rw [List.forall_mem_cons] at hvalues
    exact ⟨⟨hhome, hvalues.1⟩, fun _ => ⟨hhome, Expr.follows_letIn.mpr ⟨hbody, hvalues.2⟩⟩⟩
  fits_lambda := fun h _ => ⟨h.1, fun _ he => h.2.inside he⟩
  fits_bodyCons := by
    rintro w c e es ⟨hhome, h⟩
    rw [Expr.follows_sequence, List.forall_mem_cons] at h
    exact ⟨⟨hhome, h.1⟩, fun _ => ⟨hhome, Expr.follows_sequence.mpr h.2⟩⟩
  fits_bodyDefine := by
    rintro w c name e es ⟨hhome, h⟩ v
    rw [Expr.follows_sequence, List.forall_mem_cons] at h
    exact ⟨hhome, Expr.follows_sequence.mpr h.2⟩
  fits_topCons := by
    rintro w c e es ⟨hhome, h⟩
    rw [Expr.follows_sequence, List.forall_mem_cons] at h
    exact ⟨⟨hhome, h.1⟩, fun _ _ => ⟨hhome, Expr.follows_sequence.mpr h.2⟩⟩
  leaves := fun _ => trivial
  define := fun hw _ hv => ⟨⟨hw.define hv, trivial⟩, trivial⟩
  defineFunction := fun hw h => ⟨⟨hw.addClauses h.1 h.2, trivial⟩, fun _ => trivial⟩
  defineModule := by
    intro w c top name es hw h
    have hinside : ∀ e ∈ es, e.Follows P (.named name) := fun e he => h.2.inside he
    exact ⟨⟨hw.ensureModule name, trivial⟩, Home.noConfusion, Expr.follows_sequence.mpr hinside⟩

end ClauseLisp
