import ClauseLisp.Proofs.Machine.Occurrence
import ClauseLisp.Proofs.Machine.Policy
import ClauseLisp.Proofs.Machine.Selection
import ClauseLisp.Session

/-! Private clauses. A function is exported as a whole once one of its definitions is. So a call of
a member runs only clauses of functions with an exported clause, and private clauses stay private
in functions that have no others. -/

namespace ClauseLisp

/-- Which clauses come from exported definitions of the functions of modules; a clause can come from
a private one as well. -/
abbrev Marks := Home → Bytes → Clause → Bool

/-- Whether a definition has clauses, as all do that are compiled, and these are marked if it is
exported. -/
def Expr.isMarked (mark : Marks) (home : Home) : Expr → Bool
  | defineFunction name exported clauses =>
    !clauses.isEmpty && (!exported || clauses.all (mark home name))
  | _ => true

theorem Expr.isMarked_defineFunction {mark : Marks} {home : Home} {name : Bytes} {exported : Bool}
    {clauses : List Clause} :
    (defineFunction name exported clauses).isMarked mark home = true ↔
      clauses ≠ [] ∧ (exported = true → ∀ clause ∈ clauses, mark home name clause = true) := by
  cases exported <;> simp [isMarked]

structure World.Marked (mark : Marks) (w : World) : Prop where
  core : ∀ name, w.function? .core name = none
  exported : ∀ {home name f}, w.function? home name = some f → f.exported = true →
    ∃ clause ∈ f.clauses, mark home name clause = true

namespace World

variable {mark : Marks} {w w' : World}

theorem marked_fresh : fresh.Marked mark := by
  refine ⟨function?_fresh .core, fun {home name f} hf => ?_⟩
  rw [function?_fresh] at hf
  exact absurd hf (Option.some_ne_none f).symm

theorem Marked.of_function? (hw : w.Marked mark)
    (h : ∀ home name, w'.function? home name = w.function? home name) : w'.Marked mark := by
  constructor
  · intro name
    rw [h]
    exact hw.core name
  · intro home name f hf
    rw [h] at hf
    exact hw.exported hf

theorem Marked.addClauses {home : Home} {name : Bytes} {exported : Bool} {clauses : List Clause}
    (hw : w.Marked mark) (hhome : home ≠ .core)
    (h : (Expr.defineFunction name exported clauses).isMarked mark home = true) :
    (w.update home (·.addClauses name exported clauses)).Marked mark := by
  obtain ⟨hne, hclauses⟩ := Expr.isMarked_defineFunction.mp h
  constructor
  · intro key
    have hsame : (w.update home (·.addClauses name exported clauses)).module? .core =
        w.module? .core := by
      rw [module?_update, if_neg hhome.symm]
    have hcore := hw.core key
    unfold function? at hcore ⊢
    rw [hsame]
    exact hcore
  · intro other key f hf hexported
    rcases w.function?_addClauses_cases hf with hold | ⟨rfl, rfl, rfl⟩
    · exact hw.exported hold hexported
    · -- The function was exported before, or all of the new clauses are marked.
      rcases Bool.or_eq_true_iff.mp hexported with hbefore | rfl
      · cases hg : w.function? other key with
        | none =>
          rw [hg] at hbefore
          exact Bool.noConfusion hbefore
        | some g =>
          rw [hg] at hbefore
          obtain ⟨clause, hclause, hmark⟩ := hw.exported hg hbefore
          exact ⟨clause, List.mem_append_left _ hclause, hmark⟩
      · obtain ⟨clause, hclause⟩ := List.exists_mem_of_ne_nil clauses hne
        exact ⟨clause, List.mem_append_right _ hclause, hclauses rfl clause hclause⟩

end World

def marking (mark : Marks) : Policy where
  Node := fun home e => e.isMarked mark home = true
  Functions := World.Marked mark
  node_letIn := rfl
  node_sequence := rfl
  functions_of_eq := fun h hw => hw.of_function? h
  functions_addClauses := fun hw hhome h => hw.addClauses hhome h

namespace Machine

variable {mark : Marks} {limit fuel : Nat} {Program : Expr → Prop} {c : Context} {top : Bool}
  {loc : Location} {home member : Bytes} {args : List Expr} {vs : List Value} {w w₁ : World}

theorem marked_of_arises (hmark : ∀ e, Program e → e.Follows (marking mark) .main)
    (h : Arises limit Program (fuel + 1) (.evaluate c top (.memberCall loc home member args)) w)
    (hargs : evaluateAll (perform limit fuel) c args w = (.value vs, w₁)) : w₁.Marked mark := by
  have hfits : ∀ {w : World} {e : Expr}, Program e → w.Follows (marking mark) →
      (marking mark).discipline.Fits w ⟨.main, [], 0⟩ true e :=
    fun he _ => ⟨Home.noConfusion, hmark _ he⟩
  have hfresh : World.fresh.Follows (marking mark) := World.follows_fresh World.marked_fresh
  obtain ⟨hw, hframe, hcall⟩ := Discipline.accepts_of_arises
    (D := (marking mark).discipline) hfresh hfits h
  have hparts : ∀ x ∈ args, (marking mark).discipline.Fits w c false x :=
    fun x hx => (marking mark).discipline.fits_parts hcall hx
  have hall := Discipline.agree_evaluateAll
    ((marking mark).discipline.machines_perform limit fuel) hw hframe hparts
  have hnext := hall.next.1
  rw [hargs] at hnext
  exact hnext.functions

theorem pickMember_of_marked {depth : Nat} (hw : w.Marked mark) :
    (∃ fault, pickMember limit depth loc home member vs fuel w = (.fault fault, w)) ∨
      ∃ clause ∈ (Callee.function (.named home) member).clauses w,
        mark (.named home) member clause = true := by
  rcases pickMember_cases limit depth loc home member vs fuel w with hfault | ⟨f, hf, hexported, -⟩
  · exact Or.inl hfault
  · right
    have hclauses : (Callee.function (.named home) member).clauses w = f.clauses := by
      show ((w.function? (.named home) member).map (·.clauses)).getD [] = _
      rw [hf]
      rfl
    rw [hclauses]
    exact hw.exported hf hexported

/-- Programs are evaluated one after the other from the fresh world on, and in the course of it a
member of a module is called. Once its arguments are evaluated, the call picks a clause and runs it,
or it ends without one. Whichever clause is picked, be it from a private definition, the function has
a clause of an exported one, and if the function has none of these the call ends with a fault. Under
the name of the builtin procedures there are no clauses at all. -/
theorem memberCall_runs_exported (hmark : ∀ e, Program e → e.Follows (marking mark) .main)
    (h : Arises limit Program (fuel + 1) (.evaluate c top (.memberCall loc home member args)) w)
    (hargs : evaluateAll (perform limit fuel) c args w = (.value vs, w₁)) :
    (home = coreName → w₁.function? .core member = none) ∧
    (home ≠ coreName →
      perform limit (fuel + 1) (.evaluate c top (.memberCall loc home member args)) w =
        (pickMember limit c.depth loc home member vs fuel >>=
          runPicked limit (c.depth + 1) (.named home)) w₁ ∧
      (∀ p w₂, pickMember limit c.depth loc home member vs fuel w₁ = (.value p, w₂) →
        p.clause ∈ (Callee.function (.named home) member).clauses w₂ ∧
        ∃ other ∈ (Callee.function (.named home) member).clauses w₁,
          mark (.named home) member other = true) ∧
      ((∀ clause ∈ (Callee.function (.named home) member).clauses w₁,
          mark (.named home) member clause = false) →
        ∃ fault, perform limit (fuel + 1) (.evaluate c top (.memberCall loc home member args)) w =
          (.fault fault, w₁))) := by
  have hw := marked_of_arises hmark h hargs
  refine ⟨fun _ => hw.core member, fun hhome => ?_⟩
  have hrun : perform limit (fuel + 1) (.evaluate c top (.memberCall loc home member args)) w =
      (pickMember limit c.depth loc home member vs fuel >>=
        runPicked limit (c.depth + 1) (.named home)) w₁ := by
    show (evaluateAll (perform limit fuel) c args >>=
      callMember limit (perform limit fuel) c.depth loc home member) w = _
    rw [Run.bind_of_value hargs, callMember_eq limit c.depth loc home member vs fuel hhome]
  rw [hrun]
  refine ⟨rfl, ?_⟩
  rcases pickMember_of_marked hw with ⟨fault, hfault⟩ | ⟨other, hother, hpublic⟩
  · constructor
    · intro p w₂ hp
      rw [hfault] at hp
      cases hp
    · intro _
      exact ⟨fault, Run.bind_of_fault hfault⟩
  · constructor
    · intro p w₂ hp
      exact ⟨pickMember_value hp, other, hother, hpublic⟩
    · intro hprivate
      rw [hprivate other hother] at hpublic
      exact Bool.noConfusion hpublic

def counter : Expr :=
  let twice : Clause := ⟨.unknown, [.variable (utf8 "x")], [],
    .call .unknown (utf8 "step") [.call .unknown (utf8 "step") [.localRef (utf8 "x")]]⟩
  .defineModule (utf8 "Counter")
    [.defineFunction (utf8 "step") false
      [⟨.unknown, [.variable (utf8 "x")], [],
        .operation .unknown .add [.localRef (utf8 "x"), .literal (.integer 1)]⟩],
     .defineFunction (utf8 "twice") false [twice],
     .defineFunction (utf8 "twice") true [twice]]

theorem memberCall_runs_exported_counter :
    let mark : Marks := fun _ name _ => name == utf8 "twice"
    let call : Expr := .memberCall .unknown (utf8 "Counter") (utf8 "twice") [.literal (.integer 1)]
    let Program : Expr → Prop := fun e => e = counter ∨ e = .makeTuple [call]
    let w := (perform 10 9 (.evaluate ⟨.main, [], 0⟩ true counter) .fresh).2
    (∀ e, Program e → e.Follows (marking mark) .main) ∧
    Arises 10 Program 8 (.evaluate ⟨.main, [], 0⟩ false call) w ∧
    (perform 10 8 (.evaluate ⟨.main, [], 0⟩ false call) w).1 = .value (.integer 3) ∧
    ∀ p w₂, pickMember 10 0 .unknown (utf8 "Counter") (utf8 "twice") [.integer 1] 7 w =
      (.value p, w₂) →
        p.clause ∈ (Callee.function (.named (utf8 "Counter")) (utf8 "twice")).clauses w₂ ∧
        ∃ other ∈ (Callee.function (.named (utf8 "Counter")) (utf8 "twice")).clauses w,
          mark (.named (utf8 "Counter")) (utf8 "twice") other = true := by
  intro mark call Program w
  have hmark : ∀ e, Program e → e.Follows (marking mark) .main := by
    rintro e (rfl | rfl)
    · exact Expr.follows_of_checks (Expr.isMarked mark) 9 (fun _ _ h => h) (by decide +kernel)
    · exact Expr.follows_of_checks (Expr.isMarked mark) 9 (fun _ _ h => h) (by decide +kernel)
  have hreached : Reached 10 Program w := .evaluate 9 .fresh (Or.inl rfl)
  have htop : Arises 10 Program 9 (.evaluate ⟨.main, [], 0⟩ true (.makeTuple [call])) w :=
    .top 9 hreached (Or.inr rfl)
  have harises : Arises 10 Program 8 (.evaluate ⟨.main, [], 0⟩ false call) w := by
    have hvalue : (step 10 (perform 10 8) (.evaluate ⟨.main, [], 0⟩ true (.makeTuple [call])) w).1 =
        .value (.tuple [.integer 3]) := rfl
    refine .inside htop (asks_of_exhausted (by simp [hvalue]) ?_)
    intro other _ hexhausted
    have hall : evaluateAll other ⟨.main, [], 0⟩ [call] w = (.exhausted, w) :=
      Run.bind_of_exhausted hexhausted
    show ((evaluateAll other ⟨.main, [], 0⟩ [call] >>= _) w).1 = _
    rw [Run.bind_of_exhausted hall]
    rfl
  have hargs : evaluateAll (perform 10 7) ⟨.main, [], 0⟩ [.literal (.integer 1)] w =
    (.value [.integer 1], w) := rfl
  obtain ⟨-, hother⟩ := memberCall_runs_exported hmark harises hargs
  obtain ⟨-, hpicks, -⟩ := hother (by decide)
  exact ⟨hmark, harises, rfl, hpicks⟩

end Machine

/-- A function with a private clause for one argument and an exported one for two is called with
one. -/
def mixedCall : Bytes :=
  utf8 "(defmodule M (defp f [x] :private) (defn f [x y] :public)) (M.f 1)"

theorem Session.eval_private_clause :
    ((eval mixedCall []).run.run (start 1000)).1.toOption.any
      (·.equal (.tag (utf8 "private"))) = true := by
  decide +kernel

end ClauseLisp
