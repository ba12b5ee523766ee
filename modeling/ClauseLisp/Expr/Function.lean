import ClauseLisp.Expr.Rule
import ClauseLisp.Pattern.OfForm

/-! Functions: clauses, and how the forms of a definition are read as clauses. -/

namespace ClauseLisp.Expr

def bindNames (loc : Location) : Scope → List Bytes → Report Scope
  | scope, [] => pure scope
  | scope, name :: names => do bindNames loc (← bindName scope name loc) names

def clause (rule : Rule) (scope : Scope) (form : Bytes) (params : Form) (guard : Option Form)
    (body : Form) : Report Clause :=
  match listed? params with
  | none => .fail (.invalidParameters form params.text) params.loc
  | some xs => do
    let (ps, guards) ← Report.ofExcept (Pattern.ofForms xs).result
    let inner ← bindNames params.loc scope (Pattern.namesAll ps)
    let guards ← Report.forEach (rule inner) (guards ++ guard.toList)
    let body ← rule inner body
    return ⟨params.loc, ps, guards, body⟩

def isWhen : Form → Bool
  | .atom _ (.keyword name) => name = utf8 "when"
  | _ => false

/-- The parameters, guard and body of a form that has the shape of a clause: a list or vector of
parameters and a body, with a guard between them that `:when` may announce. -/
def clauseParts? (x : Form) : Option (Form × Option Form × Form) :=
  match listed? x with
  | some [params, body] => if (listed? params).isSome then some (params, none, body) else none
  | some [params, guard, body] =>
    if (listed? params).isSome then some (params, some guard, body) else none
  | some [params, word, guard, body] =>
    if isWhen word && (listed? params).isSome then some (params, some guard, body) else none
  | _ => none

def namesBound? (params : Form) : Option (List Bytes) :=
  match listed? params with
  | none => none
  | some xs =>
    match (Pattern.ofForms xs).result with
    | .ok (ps, _) => some (Pattern.namesAll ps)
    | .error _ => none

mutual

def mentioned : Form → List Bytes
  | .atom _ (.symbol name) => [name]
  | .atom _ (.interpolation name) => [name]
  | .atom .. => []
  | .marked _ .unquote x => mentioned x
  | .marked _ .splice x => mentioned x
  | .marked .. => []
  | .sequence _ _ xs => mentionedAll xs

def mentionedAll : List Form → List Bytes
  | [] => []
  | x :: xs => mentioned x ++ mentionedAll xs

end

inductive TwoForms where
  | clauses | single | ambiguous
deriving DecidableEq

/-- The reading of one of two clauses, where a single clause would bind `bound`: ambiguous if it
uses one of those names that it does not bind itself. `none` leaves the question open. -/
def readingOf? (scope : Scope) (bound : List Bytes) (x : Form) : Option TwoForms :=
  match x.elements? with
  | some (params :: rest) =>
    match namesBound? params with
    | none => some .single
    | some own =>
      let captured (name : Bytes) : Bool :=
        !scope.contains name && !own.contains name && bound.contains name
      if (mentionedAll rest).any captured then some .ambiguous else none
  | _ => none

/-- Two forms are clauses unless the first one can only be parameters, or a name would change its
meaning with the reading. -/
def readTwo (scope : Scope) (x y : Form) : TwoForms :=
  match namesBound? x with
  | none => .clauses
  | some bound => ((readingOf? scope bound x).or (readingOf? scope bound y)).getD .clauses

def clauseOfParts (rule : Rule) (scope : Scope) (form : Bytes) :
    Form × Option Form × Form → Report Clause
  | (params, guard, body) => clause rule scope form params guard body

def singleClause (rule : Rule) (scope : Scope) (form name : Bytes) (loc : Location) :
    List Form → Report (List Clause)
  | [params, body] => do return [← clause rule scope form params none body]
  | [params, word, guard, body] =>
    if isWhen word then do return [← clause rule scope form params (some guard) body]
    else .fail (.invalidFunction form name) loc
  | _ => .fail (.invalidFunction form name) loc

def functionClauses (rule : Rule) (scope : Scope) (form name : Bytes) (loc : Location)
    (rest : List Form) : Report (List Clause) :=
  match rest.mapM clauseParts? with
  | none => singleClause rule scope form name loc rest
  | some parts =>
    let reading := match rest with
      | [x, y] => readTwo scope x y
      | _ => .clauses
    match reading with
    | .ambiguous => .fail (.ambiguousFunction form name) loc
    | .single => singleClause rule scope form name loc rest
    | .clauses => Report.forEach (clauseOfParts rule scope form) parts

def functionDefinition (rule : Rule) (scope : Scope) (exported : Bool) (loc : Location)
    (args : List Form) : Report Expr :=
  let form := utf8 (if exported then "defn" else "defp")
  match args with
  | first :: x :: rest => do
    let name ← expectName form first
    let clauses ← functionClauses rule scope form name loc (x :: rest)
    return .defineFunction name exported clauses
  | _ => .fail (.noFunctionBody form) loc

def lambdaExpression (rule : Rule) (scope : Scope) (loc : Location) : List Form → Report Expr
  | [params, body] => do return .lambda (← clause rule scope (utf8 "fn") params none body)
  | [params, word, guard, body] =>
    if isWhen word then do
      return .lambda (← clause rule scope (utf8 "fn") params (some guard) body)
    else .fail .invalidLambda loc
  | _ => .fail .invalidLambda loc

end ClauseLisp.Expr
