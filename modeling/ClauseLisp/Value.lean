import ClauseLisp.Builtin
import ClauseLisp.Expr

/-! Values of programs. A map is a list of entries in the order in which its keys were added; a
procedure has an identity, by which it is compared. -/

namespace ClauseLisp

inductive Home where
  | main
  | core
  | named (name : Bytes)
deriving DecidableEq, Inhabited

mutual

inductive Value where
  | nil
  | boolean (b : Bool)
  | integer (i : Int64)
  | float (d : Binary64)
  | string (s : Bytes)
  | tag (name : Bytes)
  | list (elements : List Value)
  | tuple (elements : List Value)
  | map (entries : List (Value × Value))
  | procedure (p : Procedure)

inductive Procedure where
  | closure (id : Nat) (clause : Clause) (frame : List (Bytes × Value)) (home : Home)
  | function (id : Nat) (home : Home) (name : Bytes)
  | builtin (name : Bytes) (b : Builtin)
  | composition (id : Nat) (outer inner : Procedure)
  | partialApplication (id : Nat) (p : Procedure) (arg : Value)
  | constant (id : Nat) (result : Value)

end

instance : Inhabited Value := ⟨.nil⟩

abbrev ValueFrame := List (Bytes × Value)

namespace Procedure

/-- A builtin procedure is one object for each of its names; all others are numbered as they are
made. -/
inductive Identity where
  | exported (name : Bytes)
  | made (id : Nat)
deriving DecidableEq

def identity : Procedure → Identity
  | closure id _ _ _ => .made id
  | function id _ _ => .made id
  | builtin name _ => .exported name
  | composition id _ _ => .made id
  | partialApplication id _ _ => .made id
  | constant id _ => .made id

def name : Procedure → Bytes
  | closure .. => utf8 "fn"
  | function _ _ name => name
  | builtin name _ => name
  | composition .. => utf8 "compose"
  | partialApplication .. => utf8 "partial"
  | constant .. => utf8 "constantly"

end Procedure

inductive Kind where
  | nil | boolean | integer | float | string | tag | list | tuple | map | procedure
deriving DecidableEq, Inhabited

def Kind.text : Kind → Bytes
  | nil => utf8 "nil"
  | boolean => utf8 "boolean"
  | integer => utf8 "integer"
  | float => utf8 "float"
  | string => utf8 "string"
  | tag => utf8 "tag"
  | list => utf8 "list"
  | tuple => utf8 "tuple"
  | map => utf8 "map"
  | procedure => utf8 "procedure"

mutual

def Datum.toValue : Datum → Value
  | .nil => .nil
  | .boolean b => .boolean b
  | .integer i => .integer i
  | .float d => .float d
  | .string s => .string s
  | .tag name => .tag name
  | .list ds => .list (Datum.toValues ds)
  | .tuple ds => .tuple (Datum.toValues ds)

def Datum.toValues : List Datum → List Value
  | [] => []
  | d :: ds => Datum.toValue d :: Datum.toValues ds

end

namespace Value

def kind : Value → Kind
  | nil => .nil
  | boolean _ => .boolean
  | integer _ => .integer
  | float _ => .float
  | string _ => .string
  | tag _ => .tag
  | list _ => .list
  | tuple _ => .tuple
  | map _ => .map
  | procedure _ => .procedure

def truthy : Value → Bool
  | nil => false
  | boolean b => b
  | _ => true

mutual

def height : Value → Nat
  | list xs => heightAll xs + 1
  | tuple xs => heightAll xs + 1
  | map es => heightEntries es + 1
  | _ => 1

def heightAll : List Value → Nat
  | [] => 0
  | x :: xs => max (height x) (heightAll xs)

def heightEntries : List (Value × Value) → Nat
  | [] => 0
  | (k, v) :: es => max (max (height k) (height v)) (heightEntries es)

end

end Value
end ClauseLisp
