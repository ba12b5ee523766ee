import ClauseLisp.Expr.OfForm
import ClauseLisp.Expr.Printer
import ClauseLisp.Form.Reader
import ClauseLisp.Machine

/-! Sessions: source texts evaluated one after the other in one world. What a text did before a
fault stays done, and each location is warned about once. -/

namespace ClauseLisp

structure Session where
  world : World
  shown : List Warning
  limit : Nat

inductive SessionFault where
  | read (f : ReadFault)
  | compile (f : CompileFault)
  | run (f : Fault)
  | exhausted

def SessionFault.message : SessionFault → Bytes
  | read f => f.message
  | compile f => f.message
  | run f => f.message
  | exhausted => utf8 "Evaluation is nested too deep"

abbrev Interaction := ExceptT SessionFault (StateM Session)

namespace Session

def defaultLimit : Nat := 1000

def start (limit : Nat) : Session := ⟨.fresh, [], limit⟩

def fuel : Nat := 1000000000

def reported {α : Type} (r : Report α) : Interaction α := do
  modify fun s => { s with shown := Warning.recordAll s.shown r.warnings }
  match r.result with
  | .ok a => return a
  | .error f => throw (.compile f)

def readAll (source file : Bytes) : Interaction (List Form) :=
  match Form.readAll source file with
  | .ok forms => return forms
  | .error f => throw (.read f)

def compile (source file : Bytes) : Interaction (List Expr) := do
  reported (Expr.ofProgram (← readAll source file))

def compileOne (source file : Bytes) : Interaction Expr := do
  match Form.read source file with
  | .ok x => reported (Expr.ofForm [] x)
  | .error f => throw (.read f)

def perform (task : Task) : Interaction Value := do
  let s ← get
  let (outcome, world) := Machine.perform s.limit fuel task s.world
  set { s with world }
  match outcome with
  | .value v => return v
  | .fault f => throw (.run f)
  | .exhausted => throw .exhausted

def evaluate (e : Expr) : Interaction Value := perform (.evaluate ⟨.main, [], 0⟩ true e)

def evaluateAll : Value → List Expr → Interaction Value
  | last, [] => return last
  | _, e :: es => do evaluateAll (← evaluate e) es

/-- The value of a source text. All of it is compiled before any of it is evaluated. -/
def eval (source file : Bytes) : Interaction Value := do
  evaluateAll .nil (← compile source file)

def call (v : Value) (args : List Value) : Interaction Value :=
  match v.expectProcedure with
  | .ok p => perform (.call 0 p args)
  | .error f => throw (.run f)

def define (home : Home) (name : Bytes) (v : Value) : Interaction Unit :=
  modify fun s => { s with world := s.world.update home (·.define name v) }

def takeOutput (s : Session) : Bytes × Session :=
  (s.world.output, { s with world := { s.world with output := [] } })

end Session
end ClauseLisp
