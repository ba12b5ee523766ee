import ClauseLisp.Proofs.Machine.Scope
import ClauseLisp.Session

/-! Sessions find their variables. The main statement, `Session.evalEach_finds_variables`, is about
all source texts that are evaluated one after the other, whether or not some end with a fault. -/

namespace ClauseLisp.Session

/-- Whether the forms of a source text define functions and modules only where they may be, and
hold no interpolations. Nothing is asked of a text that cannot be read. -/
def wellPlaced (source file : Bytes) : Bool :=
  match Form.readAll source file with
  | .ok forms => Form.placedAll .main forms
  | .error _ => true

def performWith (machine : Nat → Machine) (task : Task) : Interaction Value := do
  let s ← get
  let (outcome, world) := machine s.limit task s.world
  set { s with world }
  match outcome with
  | .value v => return v
  | .fault f => throw (.run f)
  | .exhausted => throw .exhausted

def evaluateAllWith (machine : Nat → Machine) : Value → List Expr → Interaction Value
  | last, [] => return last
  | _, e :: es => do
    evaluateAllWith machine (← performWith machine (.evaluate ⟨.main, [], 0⟩ true e)) es

def evalWith (machine : Nat → Machine) (source file : Bytes) : Interaction Value := do
  evaluateAllWith machine .nil (← compile source file)

/-- As `eval`, but a reference to a variable without a value does what `unbound` says. -/
def evalOr (unbound : Bytes → Run Value) : Bytes → Bytes → Interaction Value :=
  evalWith fun limit => Machine.performOr unbound limit fuel

def evalEach (eval : Bytes → Bytes → Interaction Value) :
    List (Bytes × Bytes) → Session → List (Except SessionFault Value) × Session
  | [], s => ([], s)
  | (source, file) :: rest, s =>
    let (result, s) := (eval source file).run.run s
    let (results, s) := evalEach eval rest s
    (result :: results, s)

theorem evalEach_cons (eval : Bytes → Bytes → Interaction Value) (source file : Bytes)
    (rest : List (Bytes × Bytes)) (s : Session) :
    evalEach eval ((source, file) :: rest) s =
      (((eval source file).run.run s).1 :: (evalEach eval rest ((eval source file).run.run s).2).1,
        (evalEach eval rest ((eval source file).run.run s).2).2) :=
  rfl

theorem evaluateAllWith_perform (last : Value) (es : List Expr) :
    evaluateAllWith (fun limit => Machine.perform limit fuel) last es = evaluateAll last es := by
  induction es generalizing last with
  | nil => rfl
  | cons e es ih =>
    unfold evaluateAllWith evaluateAll
    simp only [ih]
    rfl

theorem evalWith_perform : evalWith (fun limit => Machine.perform limit fuel) = eval := by
  funext source file
  unfold evalWith eval
  simp only [evaluateAllWith_perform]

theorem evalOr_raise : evalOr (fun name => .raise (.unboundVariable name)) = eval := by
  unfold evalOr
  simp only [Machine.performOr_raise]
  exact evalWith_perform

theorem run_bind_of_ok {α β : Type} {x : Interaction α} {f : α → Interaction β} {s s' : Session}
    {a : α} (h : x.run.run s = (.ok a, s')) : (x >>= f).run.run s = (f a).run.run s' := by
  show (x.run >>= ExceptT.bindCont f).run s = _
  rw [StateT.run_bind, h]
  rfl

theorem run_bind_of_error {α β : Type} {x : Interaction α} {f : α → Interaction β}
    {s s' : Session} {e : SessionFault} (h : x.run.run s = (.error e, s')) :
    (x >>= f).run.run s = (.error e, s') := by
  show (x.run >>= ExceptT.bindCont f).run s = _
  rw [StateT.run_bind, h]
  rfl

def settle : Outcome Value → Except SessionFault Value
  | .value v => .ok v
  | .fault f => .error (.run f)
  | .exhausted => .error .exhausted

theorem run_performWith (machine : Nat → Machine) {task : Task} {s : Session} {o : Outcome Value}
    {w : World} (h : machine s.limit task s.world = (o, w)) :
    (performWith machine task).run.run s = (settle o, { s with world := w }) := by
  show (match (machine s.limit task s.world).1 with
    | .value v => (return v : Interaction Value)
    | .fault f => throw (SessionFault.run f)
    | .exhausted => throw SessionFault.exhausted).run.run
      { s with world := (machine s.limit task s.world).2 } = _
  rw [h]
  cases o <;> rfl

theorem run_reported {α : Type} (r : Report α) (s : Session) :
    (reported r).run.run s = (r.result.mapError SessionFault.compile,
      { s with shown := Warning.recordAll s.shown r.warnings }) := by
  cases r with
  | mk warnings result => cases result <;> rfl

theorem run_compile_of_read {source file : Bytes} {forms : List Form}
    (h : Form.readAll source file = .ok forms) (s : Session) :
    (compile source file).run.run s =
      ((Expr.ofProgram forms).result.mapError SessionFault.compile,
        { s with shown := Warning.recordAll s.shown (Expr.ofProgram forms).warnings }) := by
  have hread : (readAll source file).run.run s = (.ok forms, s) := by
    unfold readAll
    rw [h]
    rfl
  show (readAll source file >>= fun forms => reported (Expr.ofProgram forms)).run.run s = _
  rw [run_bind_of_ok hread]
  exact run_reported _ _

theorem run_compile_of_readFault {source file : Bytes} {f : ReadFault}
    (h : Form.readAll source file = .error f) (s : Session) :
    (compile source file).run.run s = (.error (.read f), s) := by
  refine run_bind_of_error ?_
  unfold readAll
  rw [h]
  rfl

structure Agree (s : Session) (x y : Interaction Value) : Prop where
  eq : x.run.run s = y.run.run s
  good : Scoping.Good (x.run.run s).2.world
  ends : ∀ name, (x.run.run s).1 ≠ .error (.run (.unboundVariable name))

section Agreement

variable {s s' : Session} {x y x' y' : Interaction Value} {unbound : Bytes → Run Value}

theorem Agree.after (h : Agree s' x' y') (hx : x.run.run s = x'.run.run s')
    (hy : y.run.run s = y'.run.run s') : Agree s x y := by
  refine ⟨?_, ?_, ?_⟩
  · rw [hx, hy]
    exact h.eq
  · rw [hx]
    exact h.good
  · rw [hx]
    exact h.ends

theorem agree_throw (hw : Scoping.Good s.world) {f : SessionFault}
    (hf : ∀ name, f ≠ .run (.unboundVariable name)) : Agree s (throw f) (throw f) :=
  ⟨rfl, hw, fun name h => hf name (Except.error.inj h)⟩

theorem agree_evaluateAll {es : List Expr} (last : Value) (hw : Scoping.Good s.world)
    (h : Scoping.Fits s.world ⟨.main, [], 0⟩ true (.sequence es)) :
    Agree s (evaluateAllWith (fun limit => Machine.perform limit fuel) last es)
      (evaluateAllWith (fun limit => Machine.performOr unbound limit fuel) last es) := by
  induction es generalizing s last with
  | nil => exact ⟨rfl, hw, fun name h => nomatch h⟩
  | cons e es ih =>
    obtain ⟨hfirst, hrest⟩ := h.topCons
    have hperform := Machine.machines_performOr unbound s.limit fuel s.world
      (.evaluate ⟨.main, [], 0⟩ true e) hw ⟨List.forall_mem_nil _, hfirst⟩
    obtain ⟨o, w, hx, hy, hnext, hends⟩ := hperform.cases
    have hrun := run_performWith (fun limit => Machine.perform limit fuel) hx
    have hrunOr := run_performWith (fun limit => Machine.performOr unbound limit fuel) hy
    cases o with
    | value v =>
      have hleaves := hends.2 ⟨.main, [], 0⟩ e rfl
      exact (ih (s := { s with world := w }) v hnext.1 (hrest hnext.2 hleaves)).after
        (run_bind_of_ok hrun) (run_bind_of_ok hrunOr)
    | fault f =>
      refine (agree_throw (s := { s with world := w }) hnext.1 ?_).after (run_bind_of_error hrun)
        (run_bind_of_error hrunOr)
      exact fun name hf => hends name (SessionFault.run.inj hf)
    | exhausted =>
      exact (agree_throw (s := { s with world := w }) hnext.1 (by simp)).after
        (run_bind_of_error hrun) (run_bind_of_error hrunOr)

theorem agree_eval {source file : Bytes} (hw : Scoping.Good s.world)
    (h : wellPlaced source file = true) :
    Agree s (eval source file) (evalOr unbound source file) := by
  rw [← evalWith_perform]
  cases hread : Form.readAll source file with
  | error f =>
    have hcompile := run_compile_of_readFault hread s
    exact (agree_throw hw (by simp)).after (run_bind_of_error hcompile) (run_bind_of_error hcompile)
  | ok forms =>
    have hcompile := run_compile_of_read hread s
    generalize Warning.recordAll s.shown (Expr.ofProgram forms).warnings = shown at hcompile
    cases hresult : (Expr.ofProgram forms).result with
    | error f =>
      rw [hresult] at hcompile
      exact (agree_throw (s := { s with shown }) hw (by simp)).after (run_bind_of_error hcompile)
        (run_bind_of_error hcompile)
    | ok es =>
      rw [hresult] at hcompile
      have hplaced : Form.placedAll .main forms = true := by
        simpa only [wellPlaced, hread] using h
      have hscoped := Expr.scoped_ofProgram (Form.placedAll_iff.mp hplaced) es hresult
      have hfits : Scoping.Fits s.world ⟨.main, [], 0⟩ true (.sequence es) :=
        ⟨.main, [], hscoped, List.forall_mem_nil _, rfl, rfl, rfl⟩
      exact (agree_evaluateAll (s := { s with shown }) .nil hw hfits).after
        (run_bind_of_ok hcompile) (run_bind_of_ok hcompile)

theorem agree_evalEach (unbound : Bytes → Run Value) {sources : List (Bytes × Bytes)}
    (hw : Scoping.Good s.world) (h : ∀ p ∈ sources, wellPlaced p.1 p.2 = true) :
    evalEach (evalOr unbound) sources s = evalEach eval sources s ∧
      ∀ r ∈ (evalEach eval sources s).1, ∀ name, r ≠ .error (.run (.unboundVariable name)) := by
  induction sources generalizing s with
  | nil => exact ⟨rfl, List.forall_mem_nil _⟩
  | cons p rest ih =>
    obtain ⟨source, file⟩ := p
    rw [List.forall_mem_cons] at h
    have hfirst : Agree s (eval source file) (evalOr unbound source file) := agree_eval hw h.1
    obtain ⟨heq, hrest⟩ := ih hfirst.good h.2
    constructor
    · rw [evalEach_cons, evalEach_cons, ← hfirst.eq, heq]
    · rw [evalEach_cons]
      exact List.forall_mem_cons.mpr ⟨hfirst.ends, hrest⟩

end Agreement

/-- In a session of source texts that define functions and modules only where they may be, every
reference finds its variable: it makes no difference what a reference to an unbound variable does,
inside of `try` or not, and no text ends with one. -/
theorem evalEach_finds_variables (limit : Nat) (sources : List (Bytes × Bytes))
    (h : ∀ p ∈ sources, wellPlaced p.1 p.2 = true) :
    (∀ unbound, evalEach (evalOr unbound) sources (start limit) =
      evalEach eval sources (start limit)) ∧
    ∀ r ∈ (evalEach eval sources (start limit)).1, ∀ name,
      r ≠ .error (.run (.unboundVariable name)) := by
  constructor
  · intro unbound
    exact (agree_evalEach unbound Scoping.good_fresh h).1
  · exact (agree_evalEach (fun _ => .exhaust) Scoping.good_fresh h).2

def textsAfterFault : List (Bytes × Bytes) :=
  [(utf8 "(def x 1) (def y (+ x nil))", []),
    (utf8 "(do (def y 2) (defn f [[a | r]] (let [z y] (fn [b] (try (do (def c x) (+ c z)))))))",
      []),
    (utf8 "(defmodule M (def k x) (defn g [n] (do (def m k) (+ m n)))) ((f [3 4]) (M.g y))", [])]

theorem evalEach_finds_variables_textsAfterFault :
    (∀ p ∈ textsAfterFault, (Form.readAll p.1 p.2).isOk = true ∧ wellPlaced p.1 p.2 = true) ∧
    (∀ unbound, evalEach (evalOr unbound) textsAfterFault (start 100) =
      evalEach eval textsAfterFault (start 100)) ∧
    ∀ r ∈ (evalEach eval textsAfterFault (start 100)).1, ∀ name,
      r ≠ .error (.run (.unboundVariable name)) :=
  ⟨by decide +kernel, evalEach_finds_variables 100 textsAfterFault (by decide +kernel)⟩

end ClauseLisp.Session
