import ClauseLisp.Form.Writer
import ClauseLisp.Warning

/-! Reports of compiling: the warnings raised, in order, and a result or the fault that ended the
work. The warnings before a fault are kept. -/

namespace ClauseLisp

inductive CompileError where
  | notAName (form got : Bytes)
  | argumentCount (form : Bytes) (least most got : Nat)
  | fewArguments (form : Bytes) (got : Nat)
  | spliceOutsideList
  | spliceIntoTuple
  | misplacedBar
  | restPattern
  | barPattern
  | whenPattern
  | invalidPattern (got : Bytes)
  | invalidParameters (form got : Bytes)
  | noFunctionBody (form : Bytes)
  | ambiguousFunction (form name : Bytes)
  | invalidFunction (form name : Bytes)
  | invalidLambda
  | noModuleName
  | invalidBindings (got : Bytes)
  | oddBindings
  | invalidClause (form got : Bytes)
  | noScrutinee
  | notCallable (kind got : Bytes)

def CompileError.cause : CompileError → Bytes
  | notAName form got => form ++ utf8 " expects a name, got " ++ got
  | argumentCount form least most got =>
    form ++ utf8 " expects " ++ Bytes.decimal least ++
      (if least = most then [] else utf8 " to " ++ Bytes.decimal most) ++
      utf8 " arguments, got " ++ Bytes.decimal got
  | fewArguments form got =>
    form ++ utf8 " expects at least 2 arguments, got " ++ Bytes.decimal got
  | spliceOutsideList => utf8 "Splice outside of a list"
  | spliceIntoTuple => utf8 "Can't splice into a tuple"
  | misplacedBar => utf8 "Unexpected | in pattern"
  | restPattern => utf8 "Expected exactly one pattern after |"
  | barPattern => utf8 "(| head tail) expects two patterns"
  | whenPattern => utf8 "(when pattern guard) expects two arguments"
  | invalidPattern got => utf8 "Invalid pattern: " ++ got
  | invalidParameters form got => utf8 "Invalid argument list in " ++ form ++ utf8 ": " ++ got
  | noFunctionBody form => form ++ utf8 " expects a name and a function body"
  | ambiguousFunction form name =>
    form ++ utf8 " " ++ name ++ utf8 (" is ambiguous: its two forms read both as two clauses and " ++
      "as one argument list with a body")
  | invalidFunction form name =>
    form ++ utf8 " " ++ name ++ utf8 " expects an argument list and a body"
  | invalidLambda => utf8 "fn expects an argument list and a body"
  | noModuleName => utf8 "defmodule expects a module name"
  | invalidBindings got => utf8 "Invalid let bindings: " ++ got
  | oddBindings => utf8 "let bindings need a value for every name"
  | invalidClause form got => utf8 "Invalid " ++ form ++ utf8 " clause: " ++ got
  | noScrutinee => utf8 "case expects an expression to match"
  | notCallable kind got => utf8 "Can't call a " ++ kind ++ utf8 ": " ++ got

structure CompileFault where
  error : CompileError
  loc : Location

def CompileFault.message (f : CompileFault) : Bytes :=
  (f.loc.describe (utf8 "Transform error: " ++ f.error.cause)).untilZero

structure Report (α : Type) where
  warnings : List Warning
  result : Except CompileFault α

namespace Report

variable {α β : Type}

instance : Monad Report where
  pure a := ⟨[], .ok a⟩
  bind r f :=
    match r.result with
    | .error e => ⟨r.warnings, .error e⟩
    | .ok a =>
      let next := f a
      ⟨r.warnings ++ next.warnings, next.result⟩

def warn (w : Warning) : Report Unit := ⟨[w], .ok ()⟩

def fail (error : CompileError) (loc : Location) : Report α := ⟨[], .error ⟨error, loc⟩⟩

def ofExcept (x : Except CompileFault α) : Report α := ⟨[], x⟩

def forEach (f : α → Report β) : List α → Report (List β)
  | [] => pure []
  | x :: xs => do
    let y ← f x
    let ys ← forEach f xs
    return y :: ys

end Report
end ClauseLisp
