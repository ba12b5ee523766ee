import ClauseLisp.Expr.Rule

/-! Quasiquoted forms: data with expressions in the unquoted places. -/

namespace ClauseLisp.Expr

mutual

/-- Whether a template has a place that is evaluated. Below a quote or quasiquote there is none. -/
def hasUnquote : Form → Bool
  | .atom _ (.interpolation _) => true
  | .atom .. => false
  | .sequence _ _ xs => anyUnquote xs
  | .marked _ .unquote _ => true
  | .marked _ .splice _ => true
  | .marked .. => false

def anyUnquote : List Form → Bool
  | [] => false
  | x :: xs => hasUnquote x || anyUnquote xs

end

def spliced? : Form → Option Form
  | .marked _ .splice x => some x
  | _ => none

mutual

def template (rule : Rule) (scope : Scope) : Form → Report Expr
  | .atom _ (.interpolation name) => pure (.localRef name)
  | .atom _ a => pure (.literal (Datum.ofAtom a))
  | .marked _ .unquote x => rule scope x
  | .marked loc .splice _ => .fail .spliceOutsideList loc
  | .marked loc m x => pure (.literal (Datum.ofForm (.marked loc m x)))
  | .sequence loc b xs =>
    if !anyUnquote xs then pure (.literal (Datum.ofForm (.sequence loc b xs)))
    else
      match b with
      | .brace => do return .makeTuple (← templateTuple rule scope xs)
      | _ => do return .makeList (← templateList rule scope xs)

def templateTuple (rule : Rule) (scope : Scope) : List Form → Report (List Expr)
  | [] => pure []
  | x :: xs => do
    if (spliced? x).isSome then Report.fail .spliceIntoTuple x.loc
    let e ← template rule scope x
    let es ← templateTuple rule scope xs
    return e :: es

def templateList (rule : Rule) (scope : Scope) : List Form → Report (List Element)
  | [] => pure []
  | x :: xs => do
    let e ← match spliced? x with
      | some y => rule scope y
      | none => template rule scope x
    let es ← templateList rule scope xs
    return ⟨(spliced? x).isSome, e⟩ :: es

end

end ClauseLisp.Expr
