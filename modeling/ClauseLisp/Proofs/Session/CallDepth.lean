import ClauseLisp.Proofs.Machine.Policy
import ClauseLisp.Proofs.Machine.Truncation
import ClauseLisp.Proofs.Session.Scope

/-! The limit of calls only cuts runs short. A source text without attempts does under a larger
limit what it does under a smaller one, unless it ends there with a call that is nested too deep. -/

namespace ClauseLisp

def attemptless : Policy where
  Node := fun _ e => e.isAttempt = false
  Functions := fun _ => True
  node_letIn := rfl
  node_sequence := rfl
  functions_of_eq := fun _ h => h
  functions_addClauses := fun h _ _ => h

namespace Machine

variable {limit limit' : Nat} {w : World} {task : Task}

theorem isAttempt_of_accepts (h : attemptless.discipline.Accepts w task) :
    task.isAttempt = false := by
  cases task with
  | evaluate c top e => exact h.2.2.self
  | call | select => rfl

theorem machines_performBare (limit fuel : Nat) :
    attemptless.discipline.Machines (perform limit fuel) (performBare limit fuel) := by
  induction fuel with
  | zero => exact fun _ _ hw _ => Contract.agree_exhaust hw
  | succ fuel ih =>
    intro w task hw htask
    have hbare : performBare limit (fuel + 1) task = step limit (performBare limit fuel) task := by
      rw [performBare, isAttempt_of_accepts htask]
      rfl
    rw [perform, hbare]
    exact Discipline.agree_step ih hw htask

theorem perform_of_limit_le (hle : limit ≤ limit') (fuel : Nat)
    (hw : w.Follows attemptless) (htask : attemptless.discipline.Accepts w task) :
    perform limit' fuel task w = perform limit fuel task w ∨
      (perform limit fuel task w).1 = .fault (.callDepth limit) := by
  -- Without attempts both machines are as good as ones that perform none, and those are truncated.
  have hbare := (machines_performBare limit fuel w task hw htask).eq
  have hbare' := (machines_performBare limit' fuel w task hw htask).eq
  have hS : Cutoff (· = .fault (.callDepth limit)) limit limit' := by
    refine ⟨hle, Or.inr rfl, ?_⟩
    rintro f ⟨⟩
    rfl
  rw [hbare, hbare']
  rcases truncates_performBare hS fuel task w with heq | ⟨stop, w', rfl, hstop⟩
  · exact Or.inl heq.symm
  · right
    rw [hstop]
    rfl

end Machine

namespace Session

/-- No expression of the source text has an attempt in it. Nothing is asked of a text that cannot
be read or compiled. -/
def WithoutAttempts (source file : Bytes) : Prop :=
  ∀ forms es, Form.readAll source file = .ok forms → (Expr.ofProgram forms).result = .ok es →
    ∀ e ∈ es, e.Follows attemptless .main

def Cut (limit' : Nat) (s : Session) (x : Interaction Value) : Prop :=
  x.run.run { s with limit := limit' } =
      ((x.run.run s).1, { (x.run.run s).2 with limit := limit' }) ∨
    (x.run.run s).1 = .error (.run (.callDepth s.limit))

variable {limit limit' : Nat} {s : Session}

theorem Cut.after {x y : Interaction Value} {s' : Session} (h : Cut limit' s' y)
    (hlimit : s'.limit = s.limit) (hx : x.run.run s = y.run.run s')
    (hx' : x.run.run { s with limit := limit' } = y.run.run { s' with limit := limit' }) :
    Cut limit' s x := by
  unfold Cut at h ⊢
  rwa [hx, hx', ← hlimit]

theorem cut_throw (f : SessionFault) : Cut limit' s (throw f) := Or.inl rfl

theorem run_evaluate {e : Expr} {o : Outcome Value} {w : World}
    (h : Machine.perform s.limit fuel (.evaluate ⟨.main, [], 0⟩ true e) s.world = (o, w)) :
    (evaluate e).run.run s = (settle o, { s with world := w }) := by
  have hperform : evaluate e =
      performWith (fun limit => Machine.perform limit fuel) (.evaluate ⟨.main, [], 0⟩ true e) := rfl
  rw [hperform]
  exact run_performWith (fun limit => Machine.perform limit fuel) h

theorem cut_evaluateAll {es : List Expr} (last : Value) (hle : s.limit ≤ limit')
    (hw : s.world.Follows attemptless) (h : ∀ e ∈ es, e.Follows attemptless .main) :
    Cut limit' s (evaluateAll last es) := by
  induction es generalizing s last with
  | nil => exact Or.inl rfl
  | cons e es ih =>
    rw [List.forall_mem_cons] at h
    have htask : attemptless.discipline.Accepts s.world (.evaluate ⟨.main, [], 0⟩ true e) :=
      ⟨List.forall_mem_nil _, Home.noConfusion, h.1⟩
    have hkeeps := Discipline.machines_perform attemptless.discipline s.limit fuel s.world _ hw htask
    obtain ⟨o, w, hperform, -, hnext, -⟩ := hkeeps.cases
    have hrun := run_evaluate hperform
    rcases Machine.perform_of_limit_le hle fuel hw htask with hsame | hcut
    · rw [hperform] at hsame
      have hrun' := run_evaluate (s := { s with limit := limit' }) hsame
      cases o with
      | value v =>
        have hrest := ih (s := { s with world := w }) v hle hnext.1 h.2
        exact hrest.after rfl (run_bind_of_ok hrun) (run_bind_of_ok hrun')
      | fault f =>
        exact (cut_throw (s := { s with world := w }) (.run f)).after rfl (run_bind_of_error hrun)
          (run_bind_of_error hrun')
      | exhausted =>
        exact (cut_throw (s := { s with world := w }) .exhausted).after rfl
          (run_bind_of_error hrun) (run_bind_of_error hrun')
    · right
      rw [hperform] at hcut
      obtain rfl : o = .fault (.callDepth s.limit) := hcut
      show ((evaluate e >>= fun v => evaluateAll v es).run.run s).1 = _
      rw [run_bind_of_error hrun]

theorem cut_eval {source file : Bytes} (hle : s.limit ≤ limit') (hw : s.world.Follows attemptless)
    (h : WithoutAttempts source file) : Cut limit' s (eval source file) := by
  cases hread : Form.readAll source file with
  | error f =>
    have hcompile := run_compile_of_readFault hread
    exact (cut_throw (s := s) (.read f)).after rfl (run_bind_of_error (hcompile s))
      (run_bind_of_error (hcompile _))
  | ok forms =>
    have hcompile := run_compile_of_read hread s
    have hcompile' := run_compile_of_read hread { s with limit := limit' }
    generalize Warning.recordAll s.shown (Expr.ofProgram forms).warnings = shown
      at hcompile hcompile'
    cases hresult : (Expr.ofProgram forms).result with
    | error f =>
      rw [hresult] at hcompile hcompile'
      exact (cut_throw (s := { s with shown }) (.compile f)).after rfl
        (run_bind_of_error hcompile) (run_bind_of_error hcompile')
    | ok es =>
      rw [hresult] at hcompile hcompile'
      have hall := cut_evaluateAll (s := { s with shown }) .nil hle hw (h forms es hread hresult)
      exact hall.after rfl (run_bind_of_ok hcompile) (run_bind_of_ok hcompile')

/-- A source text without attempts that is evaluated in a fresh world under a limit of calls, and
does not end with the fault of that limit, has under every larger limit the same result. It leaves
the same modules, output and warnings behind. -/
theorem eval_of_limit_le {source file : Bytes} (hle : limit ≤ limit')
    (h : WithoutAttempts source file)
    (hends : ((eval source file).run.run (start limit)).1 ≠ .error (.run (.callDepth limit))) :
    (eval source file).run.run (start limit') =
      (((eval source file).run.run (start limit)).1,
        { ((eval source file).run.run (start limit)).2 with limit := limit' }) := by
  have hcut : Cut limit' (start limit) (eval source file) :=
    cut_eval hle (World.follows_fresh trivial) h
  rcases hcut with hsame | hcall
  · exact hsame
  · exact absurd hcall hends

def countdown : Bytes :=
  utf8 "(defn f [0] 0) (defn f [n] :when (= (f 0) 0) (f (- n 1))) (map f [2])"

theorem withoutAttempts_countdown : WithoutAttempts countdown [] := by
  have hchecks : ((Form.readAll countdown []).toOption.bind fun forms =>
      (Expr.ofProgram forms).result.toOption).all
        (·.all (Expr.checks (fun _ e => !e.isAttempt) 9 .main)) = true := by decide +kernel
  intro forms es hread hresult e he
  have hes : es.all (Expr.checks (fun _ e => !e.isAttempt) 9 .main) = true := by
    have hoption : (Expr.ofProgram forms).result.toOption = some es := by
      rw [hresult]
      rfl
    rw [hread] at hchecks
    change (Expr.ofProgram forms).result.toOption.all _ = true at hchecks
    rwa [hoption] at hchecks
  refine Expr.follows_of_checks _ 9 (fun home e he => ?_) (List.all_eq_true.mp hes e he)
  exact (Bool.not_eq_true' _).mp he

theorem eval_of_limit_le_countdown :
    WithoutAttempts countdown [] ∧
    ((eval countdown []).run.run (start 4)).1.isOk = true ∧
    (eval countdown []).run.run (start 1000) =
      (((eval countdown []).run.run (start 4)).1,
        { ((eval countdown []).run.run (start 4)).2 with limit := 1000 }) := by
  have hok : ((eval countdown []).run.run (start 4)).1.isOk = true := by decide +kernel
  refine ⟨withoutAttempts_countdown, hok, ?_⟩
  apply eval_of_limit_le (by decide) withoutAttempts_countdown
  intro hends
  rw [hends] at hok
  exact Bool.noConfusion hok

end Session
end ClauseLisp
