import ClauseLisp.Expr
import ClauseLisp.Report

/-! The pieces that the rules for forms share: scopes, argument counts, bodies. A rule for one form
is written over the rule for its parts. -/

namespace ClauseLisp.Expr

/-- The names bound around a form, innermost first. -/
abbrev Scope := List Bytes

abbrev Rule := Scope → Form → Report Expr

def bindName (scope : Scope) (name : Bytes) (loc : Location) : Report Scope := do
  if isSpecialName name then Report.warn (.shadows loc name)
  return name :: scope

def expectName (form : Bytes) (x : Form) : Report Bytes :=
  match x.symbol? with
  | some name => pure name
  | none => .fail (.notAName form x.text) x.loc

def checkCount (form : Bytes) (least most : Nat) (loc : Location) (args : List Form) :
    Report Unit :=
  if args.length < least ∨ most < args.length then
    .fail (.argumentCount form least most args.length) loc
  else pure ()

def definedName? : Form → Option Bytes
  | .sequence _ .paren (f :: x :: _) => if f.symbol? = some (utf8 "def") then x.symbol? else none
  | _ => none

def body (rule : Rule) : Scope → List Form → Report (List Expr)
  | _, [] => pure []
  | scope, x :: xs => do
    let e ← rule scope x
    let inner ← match definedName? x with
      | some name => bindName scope name x.loc
      | none => pure scope
    let es ← body rule inner xs
    return e :: es

def listed? : Form → Option (List Form)
  | .sequence _ .brace _ => none
  | .sequence _ _ xs => some xs
  | _ => none

end ClauseLisp.Expr
