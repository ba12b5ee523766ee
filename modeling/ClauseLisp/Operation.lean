import ClauseLisp.Bytes

/-! Names with a meaning of their own: special forms, and operations that are performed without a
call. -/

namespace ClauseLisp

inductive SpecialForm where
  | defineFunction | definePrivate | define | defineModule | letIn | ifThen | cond | caseOf
  | lambda | sequence | quote | quasiquote | unquote | splice | attempt | and | or | list
deriving DecidableEq, Inhabited

namespace SpecialForm

def table : List (Bytes × SpecialForm) :=
  [(utf8 "defn", defineFunction), (utf8 "defp", definePrivate), (utf8 "def", define),
    (utf8 "defmodule", defineModule), (utf8 "let", letIn), (utf8 "if", ifThen),
    (utf8 "cond", cond), (utf8 "case", caseOf), (utf8 "lambda", lambda), (utf8 "fn", lambda),
    (utf8 "do", sequence), (utf8 "quote", quote), (utf8 "quasiquote", quasiquote),
    (utf8 "unquote", unquote), (utf8 "unquote-splicing", splice), (utf8 "try", attempt),
    (utf8 "and", and), (utf8 "or", or), (utf8 "list", list)]

def ofName? (name : Bytes) : Option SpecialForm := table.lookup name

def name (f : SpecialForm) : Bytes := ((table.find? (·.2 = f)).map (·.1)).getD []

end SpecialForm

inductive Operation where
  | add | subtract | multiply | divide | negate | remainder
  | less | greater | atMost | atLeast | equal | notEqual | not
  | head | tail | cons | isNil | isEmpty | isList | isAtom | isNumber | isString
  | str | print | println | lookup
deriving DecidableEq, Inhabited

inductive Arity where
  | unary | binary | fold | variadic
deriving DecidableEq, Inhabited

namespace Operation

structure Entry where
  name : Bytes
  operation : Operation
  arity : Arity

/-- Where an operation has several names, the first is the one it is shown by. -/
def table : List Entry :=
  [⟨utf8 "+", add, .fold⟩, ⟨utf8 "-", subtract, .fold⟩, ⟨utf8 "*", multiply, .fold⟩,
    ⟨utf8 "/", divide, .fold⟩, ⟨utf8 "rem", remainder, .binary⟩, ⟨utf8 "mod", remainder, .binary⟩,
    ⟨utf8 "<", less, .binary⟩, ⟨utf8 ">", greater, .binary⟩, ⟨utf8 "<=", atMost, .binary⟩,
    ⟨utf8 ">=", atLeast, .binary⟩, ⟨utf8 "==", equal, .binary⟩, ⟨utf8 "=", equal, .binary⟩,
    ⟨utf8 "!=", notEqual, .binary⟩, ⟨utf8 "not", not, .unary⟩, ⟨utf8 "car", head, .unary⟩,
    ⟨utf8 "head", head, .unary⟩, ⟨utf8 "first", head, .unary⟩, ⟨utf8 "cdr", tail, .unary⟩,
    ⟨utf8 "tail", tail, .unary⟩, ⟨utf8 "rest", tail, .unary⟩, ⟨utf8 "cons", cons, .binary⟩,
    ⟨utf8 "nil?", isNil, .unary⟩, ⟨utf8 "empty?", isEmpty, .unary⟩, ⟨utf8 "list?", isList, .unary⟩,
    ⟨utf8 "atom?", isAtom, .unary⟩, ⟨utf8 "number?", isNumber, .unary⟩,
    ⟨utf8 "string?", isString, .unary⟩, ⟨utf8 "str", str, .variadic⟩,
    ⟨utf8 "print", print, .variadic⟩, ⟨utf8 "println", println, .variadic⟩,
    ⟨utf8 "lookup", lookup, .binary⟩]

def find? (name : Bytes) : Option Entry := table.find? (·.name = name)

def name : Operation → Bytes
  | negate => utf8 "-"
  | op => ((table.find? (·.operation = op)).map (·.name)).getD []

end Operation

def isSpecialName (name : Bytes) : Bool :=
  (SpecialForm.ofName? name).isSome || (Operation.find? name).isSome

end ClauseLisp
