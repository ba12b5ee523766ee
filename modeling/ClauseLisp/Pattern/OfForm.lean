import ClauseLisp.Pattern
import ClauseLisp.Report

/-! Reading patterns from forms. A pattern can carry guards, which are collected beside it as the
forms they are. -/

namespace ClauseLisp.Pattern

structure Guarded (α : Type) where
  result : Except CompileFault (α × List Form)

namespace Guarded

variable {α : Type}

instance : Monad Guarded where
  pure a := ⟨.ok (a, [])⟩
  bind x f :=
    match x.result with
    | .error e => ⟨.error e⟩
    | .ok (a, guards) =>
      match (f a).result with
      | .error e => ⟨.error e⟩
      | .ok (b, more) => ⟨.ok (b, guards ++ more)⟩

def fail (error : CompileError) (loc : Location) : Guarded α := ⟨.error ⟨error, loc⟩⟩

def guard (x : Form) : Guarded Unit := ⟨.ok ((), [x])⟩

end Guarded

def isBar (x : Form) : Bool := x.symbol? = some (utf8 "|")

def hasSingleRest (xs : List Form) : Bool :=
  match xs.dropWhile (!isBar ·) with
  | [] => true
  | _ :: rest => rest.length = 1

def ofSymbol (loc : Location) (name : Bytes) : Guarded Pattern :=
  if name = utf8 "_" then pure .wildcard
  else if name = utf8 "|" then .fail .misplacedBar loc
  else pure (.variable name)

mutual

def ofForm : Form → Guarded Pattern
  | .atom loc (.symbol name) => ofSymbol loc name
  | .atom loc (.interpolation name) =>
    .fail (.invalidPattern (Form.text (.atom loc (.interpolation name)))) loc
  | .atom _ a => pure (.literal (Datum.ofAtom a))
  | .marked _ .quote x => pure (.literal (Datum.ofForm x))
  | .marked loc m x => .fail (.invalidPattern (Form.text (.marked loc m x))) loc
  | .sequence loc .square xs =>
    if hasSingleRest xs then do
      let (ps, rest) ← ofElements xs
      return .list ps rest
    else .fail .restPattern loc
  | .sequence _ .brace xs => do
    let ps ← ofForms xs
    return .tuple ps
  | .sequence _ .paren [] => pure (.literal (.list []))
  | .sequence loc .paren (x :: xs) =>
    if isBar x then
      match xs with
      | [first, rest] => do
        let p ← ofForm first
        let q ← ofForm rest
        return .list [p] (some q)
      | _ => .fail .barPattern loc
    else if x.symbol? = some (utf8 "when") then
      match xs with
      | [y, guard] => do
        let p ← ofForm y
        Guarded.guard guard
        return p
      | _ => .fail .whenPattern loc
    else do
      let p ← ofForm x
      let ps ← ofForms xs
      return .tuple (p :: ps)

def ofForms : List Form → Guarded (List Pattern)
  | [] => pure []
  | x :: xs => do
    let p ← ofForm x
    let ps ← ofForms xs
    return p :: ps

def ofElements : List Form → Guarded (List Pattern × Option Pattern)
  | [] => pure ([], none)
  | x :: xs =>
    if isBar x then
      match xs with
      | [] => pure ([], none)
      | y :: _ => do
        let p ← ofForm y
        return ([], some p)
    else do
      let p ← ofForm x
      let (ps, rest) ← ofElements xs
      return (p :: ps, rest)

end

end ClauseLisp.Pattern
