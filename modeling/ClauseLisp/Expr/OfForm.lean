import ClauseLisp.Expr.Function
import ClauseLisp.Expr.Template

/-! Compiling forms to expressions. Main definitions: `Expr.ofForm` for one form in a scope and
`Expr.ofProgram` for a sequence of forms. -/

namespace ClauseLisp.Expr

def definition (rule : Rule) (scope : Scope) (loc : Location) (args : List Form) : Report Expr :=
  match args with
  | [first, value] => do
    let name ← expectName (utf8 "def") first
    return .define name (← rule scope value)
  | _ => .fail (.argumentCount (utf8 "def") 2 2 args.length) loc

def moduleDefinition (rule : Rule) (scope : Scope) (loc : Location) : List Form → Report Expr
  | [] => .fail .noModuleName loc
  | first :: forms => do
    let name ← expectName (utf8 "defmodule") first
    return .defineModule name (← body rule scope forms)

def pair? : Form → Option (Form × Form)
  | .sequence _ .paren [x, y] => some (x, y)
  | _ => none

def alternating? : List Form → Option (List (Form × Form))
  | [] => some []
  | [_] => none
  | x :: y :: rest => (alternating? rest).map ((x, y) :: ·)

/-- Bindings are pairs if all of them are lists of two elements, and flat otherwise. -/
def letPairs (x : Form) : Report (List (Form × Form)) :=
  match listed? x with
  | none => .fail (.invalidBindings x.text) x.loc
  | some xs =>
    match (xs.mapM pair?).or (alternating? xs) with
    | some pairs => pure pairs
    | none => .fail .oddBindings x.loc

def letBindings (rule : Rule) : Scope → List (Form × Form) → Report (List Binding × Scope)
  | scope, [] => pure ([], scope)
  | scope, (x, value) :: rest => do
    let name ← expectName (utf8 "let") x
    let e ← rule scope value
    let inner ← bindName scope name x.loc
    let (bindings, scope) ← letBindings rule inner rest
    return (⟨name, e⟩ :: bindings, scope)

def letExpression (rule : Rule) (scope : Scope) (loc : Location) (args : List Form) : Report Expr :=
  match args with
  | [bindings, inner] => do
    let (bindings, scope) ← letBindings rule scope (← letPairs bindings)
    return .letIn bindings (← rule scope inner)
  | _ => .fail (.argumentCount (utf8 "let") 2 2 args.length) loc

def ifExpression (rule : Rule) (scope : Scope) (loc : Location) (args : List Form) : Report Expr :=
  match args with
  | [test, yes] => do return .ifThenElse (← rule scope test) (← rule scope yes) (.literal .nil)
  | [test, yes, no] => do
    return .ifThenElse (← rule scope test) (← rule scope yes) (← rule scope no)
  | _ => .fail (.argumentCount (utf8 "if") 2 3 args.length) loc

def clausePair (form : Bytes) (x : Form) : Report (Form × Form) :=
  match listed? x with
  | some [y, z] => pure (y, z)
  | _ => .fail (.invalidClause form x.text) x.loc

def branch (rule : Rule) (scope : Scope) (x : Form) : Report Branch := do
  let (test, result) ← clausePair (utf8 "cond") x
  return ⟨← rule scope test, ← rule scope result⟩

def isDefaultBranch (x : Form) : Bool :=
  match listed? x with
  | some (.atom _ (.boolean true) :: _) => true
  | _ => false

def condExpression (rule : Rule) (scope : Scope) (loc : Location) (args : List Form) :
    Report Expr := do
  let branches ← Report.forEach (branch rule scope) args
  if !args.getLast?.any isDefaultBranch then Report.warn (.condWithoutDefault loc)
  return .cond loc branches

def choiceDatum? : Form → Option Datum
  | .marked _ .quote x => some (Datum.ofForm x)
  | x => if x.symbol? = some (utf8 "_") then none else some (Datum.ofForm x)

def choice (rule : Rule) (scope : Scope) (x : Form) : Report Choice := do
  let (pattern, result) ← clausePair (utf8 "case") x
  return ⟨choiceDatum? pattern, ← rule scope result⟩

def caseExpression (rule : Rule) (scope : Scope) (loc : Location) : List Form → Report Expr
  | [] => .fail .noScrutinee loc
  | scrutinee :: clauses => do
    let choices ← Report.forEach (choice rule scope) clauses
    return .caseOf loc (← rule scope scrutinee) choices

def logical (rule : Rule) (scope : Scope) (form : Bytes) (combine : Expr → Expr → Expr)
    (loc : Location) (args : List Form) : Report Expr := do
  match args with
  | first :: second :: rest =>
    let e ← rule scope first
    let es ← Report.forEach (rule scope) (second :: rest)
    return es.foldl combine e
  | _ => .fail (.fewArguments form args.length) loc

def onlyArgument (form : SpecialForm) (loc : Location) (args : List Form) : Report Form :=
  match args with
  | [x] => pure x
  | _ => .fail (.argumentCount form.name 1 1 args.length) loc

def plainElement (e : Expr) : Element := ⟨false, e⟩

def specialForm (rule : Rule) (scope : Scope) (loc : Location) (args : List Form) :
    SpecialForm → Report Expr
  | .defineFunction => functionDefinition rule scope true loc args
  | .definePrivate => functionDefinition rule scope false loc args
  | .define => definition rule scope loc args
  | .defineModule => moduleDefinition rule scope loc args
  | .letIn => letExpression rule scope loc args
  | .ifThen => ifExpression rule scope loc args
  | .cond => condExpression rule scope loc args
  | .caseOf => caseExpression rule scope loc args
  | .lambda => lambdaExpression rule scope loc args
  | .sequence => do return .sequence (← body rule scope args)
  | .quote => do return .literal (Datum.ofForm (← onlyArgument .quote loc args))
  | .quasiquote => do template rule scope (← onlyArgument .quasiquote loc args)
  | .unquote => do rule scope (← onlyArgument .unquote loc args)
  | .splice => do rule scope (← onlyArgument .splice loc args)
  | .attempt => do return .attempt (← rule scope (← onlyArgument .attempt loc args))
  | .and => logical rule scope (utf8 "and") .and loc args
  | .or => logical rule scope (utf8 "or") .or loc args
  | .list => do return .makeList ((← Report.forEach (rule scope) args).map plainElement)

/-- Folds are nested to the left; a minus sign before one operand negates it. -/
def operationCall (rule : Rule) (scope : Scope) (loc : Location) (args : List Form)
    (op : Operation.Entry) : Report Expr :=
  match op.arity with
  | .unary => do
    checkCount op.name 1 1 loc args
    return .operation loc op.operation (← Report.forEach (rule scope) args)
  | .binary => do
    checkCount op.name 2 2 loc args
    return .operation loc op.operation (← Report.forEach (rule scope) args)
  | .variadic => do return .operation loc op.operation (← Report.forEach (rule scope) args)
  | .fold =>
    match args with
    | first :: second :: rest => do
      let e ← rule scope first
      let es ← Report.forEach (rule scope) (second :: rest)
      return es.foldl (fun e f => .operation loc op.operation [e, f]) e
    | [x] =>
      if op.operation = .subtract then do return .operation loc .negate [← rule scope x]
      else .fail (.fewArguments op.name 1) loc
    | [] => .fail (.fewArguments op.name 0) loc

def fieldAccess (rule : Rule) (scope : Scope) (loc : Location) (field : Bytes)
    (args : List Form) : Report Expr :=
  match args with
  | [x] => do return .operation loc .lookup [← rule scope x, .literal (.tag field)]
  | _ => .fail (.argumentCount (utf8 ":" ++ field) 1 1 args.length) loc

/-- The parts of a name before and after its first period, if there is something on both sides. -/
def qualified? (name : Bytes) : Option (Bytes × Bytes) :=
  match name.takeWhile (· ≠ byte '.'), name.dropWhile (· ≠ byte '.') with
  | home@(_ :: _), _ :: member@(_ :: _) => some (home, member)
  | _, _ => none

def fieldName? : Bytes → Option Bytes
  | c :: field@(_ :: _) => if c = byte ':' then some field else none
  | _ => none

def callByName (rule : Rule) (scope : Scope) (loc : Location) (name : Bytes) (args : List Form) :
    Report Expr :=
  match SpecialForm.ofName? name with
  | some form => specialForm rule scope loc args form
  | none =>
    match Operation.find? name with
    | some op => operationCall rule scope loc args op
    | none =>
      match fieldName? name with
      | some field => fieldAccess rule scope loc field args
      | none => do
        let es ← Report.forEach (rule scope) args
        if scope.contains name then return .apply loc (.localRef name) es
        else
          match qualified? name with
          | some (home, member) => return .memberCall loc home member es
          | none => return .call loc name es

def isCallee : Form → Bool
  | .sequence _ .paren _ => true
  | .atom _ (.interpolation _) => true
  | .marked _ .unquote _ => true
  | _ => false

def listExpression (rule : Rule) (scope : Scope) (loc : Location) : List Form → Report Expr
  | [] => pure (.literal (.list []))
  | head :: args =>
    match head with
    | .atom _ (.symbol name) => callByName rule scope loc name args
    | .atom _ (.keyword field) => fieldAccess rule scope loc field args
    | _ =>
      if isCallee head then do
        let target ← rule scope head
        return .apply loc target (← Report.forEach (rule scope) args)
      else .fail (.notCallable head.kind head.text) head.loc

def formExpression (rule : Rule) (scope : Scope) : Form → Report Expr
  | .atom loc (.symbol name) =>
    pure (if scope.contains name then .localRef name else .freeRef loc name)
  | .atom _ (.interpolation name) => pure (.localRef name)
  | .atom _ a => pure (.literal (Datum.ofAtom a))
  | .sequence loc .paren xs => listExpression rule scope loc xs
  | .sequence _ .square xs => do
    return .makeList ((← Report.forEach (rule scope) xs).map plainElement)
  | .sequence _ .brace xs => do return .makeTuple (← Report.forEach (rule scope) xs)
  | .marked _ .quote x => pure (.literal (Datum.ofForm x))
  | .marked _ .quasiquote x => template rule scope x
  | .marked _ .unquote x => rule scope x
  | .marked _ .splice x => rule scope x

def ofFormWithin : Nat → Rule
  | 0, _, _ => pure (.literal .nil)
  | n + 1, scope, x => formExpression (ofFormWithin n) scope x

def ofForm (scope : Scope) (x : Form) : Report Expr := ofFormWithin x.height scope x

def ofProgram (forms : List Form) : Report (List Expr) := body ofForm [] forms

end ClauseLisp.Expr
