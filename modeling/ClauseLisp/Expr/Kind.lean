import ClauseLisp.Expr

/-! The kinds of expressions, and looking at an expression as one of a kind. The expression may be
missing. -/

namespace ClauseLisp.Expr

inductive Kind where
  | literal | localRef | freeRef | call | memberCall | apply | operation | and | or | ifThenElse
  | cond | caseOf | letIn | lambda | defineFunction | define | sequence | attempt | makeList
  | makeTuple | defineModule
deriving DecidableEq, Inhabited

namespace Kind

def table : List (Bytes × Kind) :=
  [(utf8 "literal_expression", literal), (utf8 "local_reference_expression", localRef),
    (utf8 "free_reference_expression", freeRef), (utf8 "application_expression", call),
    (utf8 "qualified_call_expression", memberCall), (utf8 "apply_expression", apply),
    (utf8 "built_in_operation_expression", operation), (utf8 "and_expression", and),
    (utf8 "or_expression", or), (utf8 "if_expression", ifThenElse),
    (utf8 "cond_expression", cond), (utf8 "case_expression", caseOf),
    (utf8 "let_expression", letIn), (utf8 "lambda_expression", lambda),
    (utf8 "function_definition_expression", defineFunction),
    (utf8 "definition_expression", define), (utf8 "sequence_expression", sequence),
    (utf8 "try_expression", attempt), (utf8 "make_list_expression", makeList),
    (utf8 "make_tuple_expression", makeTuple),
    (utf8 "module_definition_expression", defineModule)]

def ofText? (s : Bytes) : Option Kind := table.lookup s

def text (k : Kind) : Bytes := ((table.find? (·.2 = k)).map (·.1)).getD []

end Kind

def kind : Expr → Kind
  | literal .. => .literal
  | localRef .. => .localRef
  | freeRef .. => .freeRef
  | call .. => .call
  | memberCall .. => .memberCall
  | apply .. => .apply
  | operation .. => .operation
  | and .. => .and
  | or .. => .or
  | ifThenElse .. => .ifThenElse
  | cond .. => .cond
  | caseOf .. => .caseOf
  | letIn .. => .letIn
  | lambda .. => .lambda
  | defineFunction .. => .defineFunction
  | define .. => .define
  | sequence .. => .sequence
  | attempt .. => .attempt
  | makeList .. => .makeList
  | makeTuple .. => .makeTuple
  | defineModule .. => .defineModule

inductive KindError where
  | missing
  | unexpected (expected : Kind) (got : Option Kind)

def KindError.message : KindError → Bytes
  | missing => utf8 "Visiting an empty sum_type"
  | unexpected expected got =>
    utf8 "Invalid type: expected " ++ expected.text ++ utf8 ", got " ++
      got.elim (utf8 "<empty>") Kind.text

def present : Option Expr → Except KindError Expr
  | some e => .ok e
  | none => .error .missing

def expect (k : Kind) (e : Option Expr) : Except KindError Expr :=
  match e with
  | some e => if e.kind = k then .ok e else .error (.unexpected k (some e.kind))
  | none => .error (.unexpected k none)

end ClauseLisp.Expr
