import ClauseLisp.Builtin.Call
import ClauseLisp.Pattern.Match

/-! Evaluation. A machine performs tasks: evaluating an expression, calling a procedure, trying the
clauses of a function. One step of a task is written over the machine for the tasks inside it, and
fuel bounds how deep these nest. Calls of clauses are counted and limited on their own. -/

namespace ClauseLisp

structure Context where
  home : Home
  frame : ValueFrame
  /-- The number of clauses being run around the expression. -/
  depth : Nat

structure Callee where
  home : Home
  name : Bytes
  lambda? : Option Clause
  frame : ValueFrame

inductive Task where
  | evaluate (c : Context) (top : Bool) (e : Expr)
  | call (depth : Nat) (p : Procedure) (args : List Value)
  | select (depth : Nat) (callee : Callee) (args : List Value) (index : Nat)

namespace Callee

def function (home : Home) (name : Bytes) : Callee := ⟨home, name, none, []⟩

/-- The clauses as they are now; a function can gain some while it is being called. -/
def clauses (callee : Callee) (w : World) : List Clause :=
  match callee.lambda? with
  | some c => [c]
  | none => ((w.function? callee.home callee.name).map (·.clauses)).getD []

end Callee

abbrev Machine := Task → Run Value

namespace Machine

def invoke (limit : Nat) (machine : Machine) (depth : Nat) (callee : Callee) (args : List Value) :
    Run Value :=
  if limit ≤ depth then .raise (.callDepth limit)
  else machine (.select (depth + 1) callee args 0)

def callFunction (limit : Nat) (machine : Machine) (depth : Nat) (home : Home) (name : Bytes)
    (args : List Value) : Run Value :=
  invoke limit machine depth (.function home name) args

def callProcedure (limit : Nat) (machine : Machine) (depth : Nat) (args : List Value) :
    Procedure → Run Value
  | .closure _ clause frame home =>
    invoke limit machine depth ⟨home, utf8 "fn", some clause, frame⟩ args
  | .function _ home name => do
    match ← Run.look (·.function? home name) with
    | some _ => callFunction limit machine depth home name args
    | none => .raise (.missingFunction name)
  | .builtin name b => Builtin.invoke (fun p args => machine (.call depth p args)) name b args
  | .composition _ outer inner => do
    let v ← machine (.call depth inner args)
    machine (.call depth outer [v])
  | .partialApplication _ p arg => machine (.call depth p (arg :: args))
  | .constant _ v => pure v

def callValue (machine : Machine) (depth : Nat) (v : Value) (args : List Value) : Run Value := do
  machine (.call depth (← Run.ofExcept v.expectProcedure) args)

def evaluate (machine : Machine) (c : Context) (e : Expr) : Run Value :=
  machine (.evaluate c false e)

def evaluateAll (machine : Machine) (c : Context) (es : List Expr) : Run (List Value) :=
  Run.forEach (evaluate machine c) es

/-- A guard that raises a type fault does not hold. -/
def guardHolds (machine : Machine) (c : Context) (g : Expr) : Run Bool :=
  Run.catching (do return (← evaluate machine c g).truthy) fun f =>
    if f.isTypeFault then pure false else .raise f

def guardsHold (machine : Machine) (c : Context) : List Expr → Run Bool
  | [] => pure true
  | g :: gs => do
    if ← guardHolds machine c g then guardsHold machine c gs else return false

def select (machine : Machine) (depth : Nat) (callee : Callee) (args : List Value) (index : Nat) :
    Run Value := do
  match ← Run.look fun w => (callee.clauses w)[index]? with
  | none => .raise (.noClause callee.name args)
  | some clause =>
    match Pattern.matchAll? clause.parameters args callee.frame with
    | none => machine (.select depth callee args (index + 1))
    | some frame =>
      let c : Context := ⟨callee.home, frame, depth⟩
      if ← guardsHold machine c clause.guards then evaluate machine c clause.body
      else machine (.select depth callee args (index + 1))

def definition? (w : World) (home : Home) (name : Bytes) : Option Value :=
  (w.definition? home name).or (w.definition? .main name)

def localReference (c : Context) (name : Bytes) : Run Value := do
  match c.frame.lookup name with
  | some v => pure v
  | none =>
    match ← Run.look (definition? · c.home name) with
    | some v => pure v
    | none => .raise (.unboundVariable name)

def functionReference (limit : Nat) (machine : Machine) (depth : Nat) (home : Home) (name : Bytes)
    (f : Function) : Run Value :=
  if f.clauses.any (·.parameters.isEmpty) then callFunction limit machine depth home name []
  else do return .procedure (.function (← Run.freshId) home name)

def freeReference (limit : Nat) (machine : Machine) (c : Context) (loc : Location) (name : Bytes) :
    Run Value := do
  match ← Run.look (definition? · c.home name) with
  | some v => pure v
  | none =>
    match ← Run.look (·.function? c.home name) with
    | some f => functionReference limit machine c.depth c.home name f
    | none =>
      match ← Run.look (·.function? .main name) with
      | some f => functionReference limit machine c.depth .main name f
      | none =>
        match ← Run.look (·.definition? .core name) with
        | some v => pure v
        | none => .raise (.undefinedName loc name)

def hasCallable (w : World) (name : Bytes) (home : Home) : Bool :=
  (w.function? home name).isSome || (w.definition? home name).isSome

def callNamed (limit : Nat) (machine : Machine) (depth : Nat) (loc : Location) (home : Home)
    (name : Bytes) (args : List Value) : Run Value := do
  match ← Run.look (·.function? home name) with
  | some _ => callFunction limit machine depth home name args
  | none =>
    match ← Run.look (·.definition? home name) with
    | some v => callValue machine depth v args
    | none => .raise (.undefinedFunction loc name args.length)

def callByName (limit : Nat) (machine : Machine) (c : Context) (loc : Location) (name : Bytes)
    (args : List Value) : Run Value := do
  match ← Run.look fun w => [c.home, .main, .core].find? (hasCallable w name) with
  | some home => callNamed limit machine c.depth loc home name args
  | none => .raise (.undefinedFunction loc name args.length)

def callMember (limit : Nat) (machine : Machine) (depth : Nat) (loc : Location)
    (home member : Bytes) (args : List Value) : Run Value := do
  if home = coreName then callNamed limit machine depth loc .core member args
  else
    match ← Run.look (·.module? (.named home)) with
    | none => .raise (.unknownModule loc home)
    | some m =>
      match m.function? member with
      | none => .raise (.undefinedMember loc home member args.length)
      | some f =>
        if f.exported then callFunction limit machine depth (.named home) member args
        else .raise (.privateMember loc home member)

def joinDisplays (separator : Bytes) (vs : List Value) : Bytes :=
  separator.intercalate (vs.map Value.display)

def printed (s : Bytes) : Run Value := do
  Run.change (·.print s)
  return .tag (utf8 "ok")

def test (b : Bool) : Except Fault Value := .ok (.boolean b)

def ordered (x y : Value) (accepted : Ordering → Bool) : Except Fault Value := do
  test (accepted (← x.order y))

def compute : Operation → List Value → Except Fault Value
  | .add, [x, y] => x.add y
  | .subtract, [x, y] => x.subtract y
  | .multiply, [x, y] => x.multiply y
  | .divide, [x, y] => x.divide y
  | .negate, [x] => x.negate
  | .remainder, [x, y] => x.remainder y
  | .less, [x, y] => ordered x y (·.isLT)
  | .greater, [x, y] => ordered x y (·.isGT)
  | .atMost, [x, y] => ordered x y (·.isLE)
  | .atLeast, [x, y] => ordered x y (·.isGE)
  | .equal, [x, y] => test (x.arithEqual y)
  | .notEqual, [x, y] => test (!x.arithEqual y)
  | .not, [x] => test (!x.truthy)
  | .head, [x] => x.head
  | .tail, [x] => x.tail
  | .cons, [x, y] => x.cons y
  | .isNil, [x] => test (x.kind = .nil)
  | .isEmpty, [x] => do test (← x.isEmpty)
  | .isList, [x] => test (x.kind = .list)
  | .isAtom, [x] => test x.isAtom
  | .isNumber, [x] => test x.isNumber
  | .isString, [x] => test (x.kind = .string)
  | .str, xs => .ok (.string (joinDisplays [] xs))
  | .lookup, [x, key] => Builtin.getFrom x key
  | _, _ => .error .malformed

def operate (op : Operation) (args : List Value) : Run Value :=
  match op with
  | .print => printed (joinDisplays (utf8 " ") args)
  | .println => printed (joinDisplays (utf8 " ") args ++ utf8 "\n")
  | _ => .ofExcept (compute op args)

def evaluateBranches (machine : Machine) (c : Context) (loc : Location) : List Branch → Run Value
  | [] => .raise (.noBranch loc)
  | b :: bs => do
    if (← evaluate machine c b.test).truthy then evaluate machine c b.result
    else evaluateBranches machine c loc bs

def choiceAccepts (v : Value) (choice : Choice) : Bool :=
  choice.datum.all (·.toValue.equal v)

def evaluateChoices (machine : Machine) (c : Context) (loc : Location) (v : Value)
    (choices : List Choice) : Run Value :=
  match choices.find? (choiceAccepts v) with
  | some choice => evaluate machine c choice.body
  | none => .raise (.noChoice loc v)

def bindValue (c : Context) (name : Bytes) (v : Value) : Context :=
  { c with frame := (name, v) :: c.frame }

def evaluateLet (machine : Machine) (body : Expr) : Context → List Binding → Run Value
  | c, [] => evaluate machine c body
  | c, b :: bs => do
    let v ← evaluate machine c b.value
    evaluateLet machine body (bindValue c b.name v) bs

/-- Inside a body a definition binds its name for what follows; `last` is the value so far. -/
def evaluateBody (machine : Machine) : Context → Value → List Expr → Run Value
  | _, last, [] => pure last
  | c, _, .define name e :: es => do
    let v ← evaluate machine c e
    evaluateBody machine (bindValue c name v) v es
  | c, _, e :: es => do
    let v ← evaluate machine c e
    evaluateBody machine c v es

def evaluateTop (machine : Machine) (c : Context) : Value → List Expr → Run Value
  | last, [] => pure last
  | _, e :: es => do
    let v ← machine (.evaluate c true e)
    evaluateTop machine c v es

def evaluateElements (machine : Machine) (c : Context) : List Element → Run (List Value)
  | [] => pure []
  | e :: es => do
    let v ← evaluate machine c e.value
    let vs ← if e.spliced then Run.ofExcept v.expectList else pure [v]
    return vs ++ (← evaluateElements machine c es)

def failure (f : Fault) : Value := .tuple [.tag (utf8 "error"), .string f.message]

def evaluateStep (limit : Nat) (machine : Machine) (c : Context) (top : Bool) : Expr → Run Value
  | .literal d => pure d.toValue
  | .localRef name => localReference c name
  | .freeRef loc name => freeReference limit machine c loc name
  | .call loc name args => do
    callByName limit machine c loc name (← evaluateAll machine c args)
  | .memberCall loc home member args => do
    callMember limit machine c.depth loc home member (← evaluateAll machine c args)
  | .apply _ target args => do
    let v ← evaluate machine c target
    callValue machine c.depth v (← evaluateAll machine c args)
  | .operation _ op operands => do operate op (← evaluateAll machine c operands)
  | .and left right => do
    let v ← evaluate machine c left
    if v.truthy then evaluate machine c right else return v
  | .or left right => do
    let v ← evaluate machine c left
    if v.truthy then return v else evaluate machine c right
  | .ifThenElse test yes no => do
    if (← evaluate machine c test).truthy then evaluate machine c yes else evaluate machine c no
  | .cond loc branches => evaluateBranches machine c loc branches
  | .caseOf loc scrutinee choices => do
    evaluateChoices machine c loc (← evaluate machine c scrutinee) choices
  | .letIn bindings body => evaluateLet machine body c bindings
  | .lambda clause => do return .procedure (.closure (← Run.freshId) clause c.frame c.home)
  | .defineFunction name exported clauses => do
    Run.change (·.update c.home (·.addClauses name exported clauses))
    return .procedure (.function (← Run.freshId) c.home name)
  | .define name e => do
    let v ← evaluate machine c e
    if top then Run.change (·.update c.home (·.define name v))
    return v
  | .sequence es =>
    if top then evaluateTop machine c .nil es else evaluateBody machine c .nil es
  | .attempt e => Run.catching (evaluate machine c e) fun f => pure (failure f)
  | .makeList elements => do return .list (← evaluateElements machine c elements)
  | .makeTuple es => do return .tuple (← evaluateAll machine c es)
  | .defineModule name es => do
    Run.change (·.ensureModule name)
    let _ ← evaluateTop machine ⟨.named name, [], c.depth⟩ .nil es
    return .tag name

def step (limit : Nat) (machine : Machine) : Machine
  | .evaluate c top e => evaluateStep limit machine c top e
  | .call depth p args => callProcedure limit machine depth args p
  | .select depth callee args index => select machine depth callee args index

/-- Performs tasks that nest at most as deep as there is fuel. -/
def perform (limit : Nat) : Nat → Machine
  | 0, _ => .exhaust
  | fuel + 1, task => step limit (perform limit fuel) task

end Machine
end ClauseLisp
