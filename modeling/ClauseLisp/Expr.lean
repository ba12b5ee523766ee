import ClauseLisp.Operation
import ClauseLisp.Pattern

/-! Expressions: what forms are compiled to and what is evaluated. -/

namespace ClauseLisp

mutual

inductive Expr where
  | literal (d : Datum)
  | localRef (name : Bytes)
  | freeRef (loc : Location) (name : Bytes)
  | call (loc : Location) (name : Bytes) (args : List Expr)
  | memberCall (loc : Location) (home member : Bytes) (args : List Expr)
  | apply (loc : Location) (target : Expr) (args : List Expr)
  | operation (loc : Location) (op : Operation) (operands : List Expr)
  | and (left right : Expr)
  | or (left right : Expr)
  | ifThenElse (test yes no : Expr)
  | cond (loc : Location) (branches : List Branch)
  | caseOf (loc : Location) (scrutinee : Expr) (choices : List Choice)
  | letIn (bindings : List Binding) (body : Expr)
  | lambda (clause : Clause)
  | defineFunction (name : Bytes) (exported : Bool) (clauses : List Clause)
  | define (name : Bytes) (value : Expr)
  | sequence (body : List Expr)
  | attempt (body : Expr)
  | makeList (elements : List Element)
  | makeTuple (elements : List Expr)
  | defineModule (name : Bytes) (body : List Expr)

structure Branch where
  test : Expr
  result : Expr

structure Choice where
  datum : Option Datum
  body : Expr

structure Binding where
  name : Bytes
  value : Expr

/-- An element of a list; a spliced one is a list whose elements are inserted. -/
structure Element where
  spliced : Bool
  value : Expr

structure Clause where
  loc : Location
  parameters : List Pattern
  guards : List Expr
  body : Expr

end

instance : Inhabited Expr := ⟨.literal .nil⟩

end ClauseLisp
