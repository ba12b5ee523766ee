import ClauseLisp.Value.Printer

/-! The text of expressions. Operators are written between their operands, with parentheses only
where the operand binds less tightly; operators associate to the left. -/

namespace ClauseLisp

namespace Operation

def isInfixed : Operation → Bool
  | add | subtract | multiply | divide | remainder => true
  | less | greater | atMost | atLeast | equal | notEqual => true
  | _ => false

def binding : Operation → Nat
  | negate | not => 6
  | multiply | divide | remainder => 5
  | add | subtract => 4
  | less | greater | atMost | atLeast | equal | notEqual => 3
  | _ => 10

end Operation

mutual

def Pattern.shown : Pattern → Bytes
  | .variable name => name
  | .wildcard => utf8 "_"
  | .literal d => d.toValue.shown
  | .list ps none => utf8 "[" ++ Pattern.shownAll ps ++ utf8 "]"
  | .list ps (some rest) =>
    utf8 "[" ++ Pattern.shownAll ps ++ utf8 " | " ++ Pattern.shown rest ++ utf8 "]"
  | .tuple ps => braced (Pattern.shownAll ps)

def Pattern.shownAll : List Pattern → Bytes
  | [] => []
  | [p] => Pattern.shown p
  | p :: q :: ps => Pattern.shown p ++ utf8 ", " ++ Pattern.shownAll (q :: ps)

end

namespace Expr

def binding : Expr → Nat
  | operation _ op _ => op.binding
  | and .. => 2
  | or .. => 1
  | _ => 10

def parenthesized (around : Nat) (right : Bool) (e : Expr) (text : Bytes) : Bytes :=
  if e.binding < around ∨ (right ∧ e.binding = around) then utf8 "(" ++ text ++ utf8 ")" else text

def newline (indent : Nat) : Bytes := utf8 "\n" ++ Bytes.padding indent

mutual

def shown (indent : Nat) : Expr → Bytes
  | literal d => d.toValue.shown
  | localRef name => name
  | freeRef _ name => name
  | call _ name args => name ++ utf8 "(" ++ shownList indent args ++ utf8 ")"
  | memberCall _ home member args =>
    home ++ utf8 "." ++ member ++ utf8 "(" ++ shownList indent args ++ utf8 ")"
  | apply _ target args =>
    utf8 "apply(" ++ shown indent target ++ utf8 ", [" ++ shownList indent args ++ utf8 "])"
  | operation _ op operands => shownOperation indent op operands
  | and left right =>
    parenthesized 2 false left (shown indent left) ++ utf8 " and " ++
      parenthesized 2 true right (shown indent right)
  | or left right =>
    parenthesized 1 false left (shown indent left) ++ utf8 " or " ++
      parenthesized 1 true right (shown indent right)
  | ifThenElse test yes no =>
    utf8 "if " ++ shown indent test ++ utf8 " then" ++
      newline (indent + 2) ++ shown (indent + 2) yes ++
      newline indent ++ utf8 "else" ++
      newline (indent + 2) ++ shown (indent + 2) no ++
      newline indent ++ utf8 "end"
  | cond _ branches => utf8 "cond" ++ shownBranches (indent + 2) branches ++ newline indent ++ utf8 "end"
  | caseOf _ scrutinee choices =>
    utf8 "case " ++ shown indent scrutinee ++ utf8 " of" ++ shownChoices (indent + 2) choices ++
      newline indent ++ utf8 "end"
  | letIn bindings inner =>
    utf8 "let " ++ shownBindings indent bindings ++ utf8 " in" ++
      newline (indent + 2) ++ shown (indent + 2) inner ++ newline indent ++ utf8 "end"
  | lambda ⟨_, ps, guards, inner⟩ =>
    utf8 "fn (" ++ Pattern.shownAll ps ++ utf8 ")" ++ shownGuards indent guards ++ utf8 " -> " ++
      shown indent inner ++ utf8 " end"
  | defineFunction name exported clauses =>
    shownClauses indent (utf8 (if exported then "defn " else "defp ") ++ name) clauses
  | define name value => utf8 "def " ++ name ++ utf8 " = " ++ shown indent value
  | sequence [] => utf8 "do end"
  | sequence (e :: es) =>
    utf8 "do" ++ newline (indent + 2) ++ shown (indent + 2) e ++ shownBlock (indent + 2) es ++
      newline indent ++ utf8 "end"
  | attempt inner =>
    utf8 "try do" ++ newline (indent + 2) ++ shown (indent + 2) inner ++ newline indent ++ utf8 "end"
  | makeList elements => utf8 "[" ++ shownElements indent elements ++ utf8 "]"
  | makeTuple elements => braced (shownList indent elements)
  | defineModule name forms =>
    utf8 "defmodule " ++ name ++ utf8 " do" ++ shownBlock (indent + 2) forms ++
      newline indent ++ utf8 "end"

def shownOperation (indent : Nat) (op : Operation) : List Expr → Bytes
  | [] => op.name ++ utf8 "()"
  | [x] =>
    if op = .negate then utf8 "-" ++ parenthesized 6 false x (shown indent x)
    else if op = .not then utf8 "not " ++ parenthesized 6 false x (shown indent x)
    else op.name ++ utf8 "(" ++ shown indent x ++ utf8 ")"
  | [x, y] =>
    if op.isInfixed then
      parenthesized op.binding false x (shown indent x) ++ utf8 " " ++ op.name ++ utf8 " " ++
        parenthesized op.binding true y (shown indent y)
    else op.name ++ utf8 "(" ++ shown indent x ++ utf8 ", " ++ shown indent y ++ utf8 ")"
  | x :: xs => op.name ++ utf8 "(" ++ shown indent x ++ utf8 ", " ++ shownList indent xs ++ utf8 ")"

def shownList (indent : Nat) : List Expr → Bytes
  | [] => []
  | [e] => shown indent e
  | e :: f :: es => shown indent e ++ utf8 ", " ++ shownList indent (f :: es)

def shownBlock (indent : Nat) : List Expr → Bytes
  | [] => []
  | e :: es => newline indent ++ shown indent e ++ shownBlock indent es

def shownBranches (indent : Nat) : List Branch → Bytes
  | [] => []
  | ⟨test, result⟩ :: rest =>
    newline indent ++ shown indent test ++ utf8 " -> " ++ shown indent result ++
      shownBranches indent rest

def shownChoices (indent : Nat) : List Choice → Bytes
  | [] => []
  | ⟨datum, result⟩ :: rest =>
    newline indent ++ datum.elim (utf8 "_") (·.toValue.shown) ++ utf8 " -> " ++
      shown indent result ++ shownChoices indent rest

def shownBindings (indent : Nat) : List Binding → Bytes
  | [] => []
  | [⟨name, value⟩] => name ++ utf8 " = " ++ shown indent value
  | ⟨name, value⟩ :: b :: bs =>
    name ++ utf8 " = " ++ shown indent value ++ utf8 ", " ++ shownBindings indent (b :: bs)

def shownGuards (indent : Nat) : List Expr → Bytes
  | [] => []
  | g :: gs => utf8 " when " ++ shown indent g ++ shownMoreGuards indent gs

def shownMoreGuards (indent : Nat) : List Expr → Bytes
  | [] => []
  | g :: gs => utf8 " and " ++ shown indent g ++ shownMoreGuards indent gs

def shownClauses (indent : Nat) (head : Bytes) : List Clause → Bytes
  | [] => []
  | [⟨_, ps, guards, inner⟩] =>
    head ++ utf8 "(" ++ Pattern.shownAll ps ++ utf8 ")" ++ shownGuards indent guards ++ utf8 " do" ++
      newline (indent + 2) ++ shown (indent + 2) inner ++ newline indent ++ utf8 "end"
  | ⟨_, ps, guards, inner⟩ :: c :: cs =>
    head ++ utf8 "(" ++ Pattern.shownAll ps ++ utf8 ")" ++ shownGuards indent guards ++ utf8 " do" ++
      newline (indent + 2) ++ shown (indent + 2) inner ++ newline indent ++ utf8 "end" ++
      newline indent ++ shownClauses indent head (c :: cs)

def shownElements (indent : Nat) : List Element → Bytes
  | [] => []
  | [⟨spliced, e⟩] => (if spliced then utf8 "..." else []) ++ shown indent e
  | ⟨spliced, e⟩ :: f :: es =>
    (if spliced then utf8 "..." else []) ++ shown indent e ++ utf8 ", " ++
      shownElements indent (f :: es)

end

def shownProgram (es : List Expr) : Bytes := (utf8 "\n").intercalate (es.map (shown 0))

end Expr
end ClauseLisp
