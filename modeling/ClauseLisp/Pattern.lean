import ClauseLisp.Datum

/-! Patterns for the parameters of clauses. -/

namespace ClauseLisp

inductive Pattern where
  | variable (name : Bytes)
  | wildcard
  | literal (d : Datum)
  /-- With a rest the list may be longer, and the rest matches what is left. -/
  | list (elements : List Pattern) (rest : Option Pattern)
  | tuple (elements : List Pattern)
deriving Inhabited

namespace Pattern

mutual

def names : Pattern → List Bytes
  | .variable name => [name]
  | .wildcard => []
  | .literal _ => []
  | .list ps none => namesAll ps
  | .list ps (some rest) => namesAll ps ++ names rest
  | .tuple ps => namesAll ps

def namesAll : List Pattern → List Bytes
  | [] => []
  | p :: ps => names p ++ namesAll ps

end

end Pattern
end ClauseLisp
