import ClauseLisp.Value.Printer

/-! What can go wrong while a program runs. Type faults are told apart from the others because a
guard that raises one just does not hold. -/

namespace ClauseLisp

inductive Fault where
  | wrongType (expected got : Kind)
  | incomparable (left right : Kind)
  | unordered (kind : Kind)
  | unboundVariable (name : Bytes)
  | undefinedName (loc : Location) (name : Bytes)
  | undefinedFunction (loc : Location) (name : Bytes) (count : Nat)
  | unknownModule (loc : Location) (home : Bytes)
  | undefinedMember (loc : Location) (home member : Bytes) (count : Nat)
  | privateMember (loc : Location) (home member : Bytes)
  | missingFunction (name : Bytes)
  | noBranch (loc : Location)
  | noChoice (loc : Location) (got : Value)
  | noClause (name : Bytes) (args : List Value)
  | callDepth (limit : Nat)
  | integerOverflow
  | divisionByZero
  | argumentCount (name : Bytes) (expected got : Nat)
  | negativeIndex (i : Int64)
  | negativeCount (i : Int64)
  | negativeRoot (d : Binary64)
  | invalidInteger (s : Bytes)
  | integerRange (d : Binary64)
  | invalidFloat (s : Bytes)
  | oddEntries (count : Nat)
  | listTooLong
  /-- An operation with a number of operands that no program has. -/
  | malformed

namespace Fault

def isTypeFault : Fault → Bool
  | wrongType .. => true
  | incomparable .. => true
  | unordered .. => true
  | _ => false

def describe : Fault → Bytes
  | wrongType expected got =>
    utf8 "Invalid type: expected " ++ expected.text ++ utf8 ", got " ++ got.text
  | incomparable left right => utf8 "Can't compare " ++ left.text ++ utf8 " with " ++ right.text
  | unordered kind => utf8 "Can't order values of type " ++ kind.text
  | unboundVariable name => utf8 "Unbound variable " ++ name
  | undefinedName loc name => loc.describe (utf8 "Undefined variable or function " ++ name)
  | undefinedFunction loc name n =>
    loc.describe (utf8 "Undefined function " ++ name ++ utf8 "/" ++ Bytes.decimal n)
  | unknownModule loc home => loc.describe (utf8 "Unknown module " ++ home)
  | undefinedMember loc home member n =>
    loc.describe
      (utf8 "Undefined function " ++ home ++ utf8 "." ++ member ++ utf8 "/" ++ Bytes.decimal n)
  | privateMember loc home member =>
    loc.describe (utf8 "Function " ++ home ++ utf8 "." ++ member ++ utf8 " is private")
  | missingFunction name => utf8 "Undefined function " ++ name
  | noBranch loc => loc.describe (utf8 "No cond clause evaluated to a truthy value")
  | noChoice loc got => loc.describe (utf8 "No case clause matching " ++ got.text)
  | noClause name args =>
    utf8 "No clause of " ++ name ++ utf8 "/" ++ Bytes.decimal args.length ++
      utf8 " matches arguments (" ++ Value.textSpaced args ++ utf8 ")"
  | callDepth limit =>
    utf8 "Maximum call depth of " ++ Bytes.decimal limit ++ utf8 " exceeded"
  | integerOverflow => utf8 "Integer overflow"
  | divisionByZero => utf8 "Division by zero"
  | argumentCount name expected got =>
    name ++ utf8 ": Wrong number of arguments, expected " ++ Bytes.decimal expected ++
      utf8 ", got " ++ Bytes.decimal got
  | negativeIndex i =>
    utf8 "nth: Index must be non-negative, got " ++ Bytes.signedDecimal i.toInt
  | negativeCount i =>
    utf8 "repeat: Count must be non-negative, got " ++ Bytes.signedDecimal i.toInt
  | negativeRoot d => utf8 "sqrt: Argument must be non-negative, got " ++ d.text
  | invalidInteger s => utf8 "to-integer: Invalid integer " ++ quoted s
  | integerRange d => utf8 "to-integer: " ++ d.text ++ utf8 " is out of range"
  | invalidFloat s => utf8 "to-float: Invalid number " ++ quoted s
  | oddEntries n =>
    utf8 "hash-map: Expected an even number of arguments, got " ++ Bytes.decimal n
  | listTooLong => utf8 "List too long"
  | malformed => utf8 "Malformed operation"

def message (f : Fault) : Bytes := f.describe.untilZero

end Fault
end ClauseLisp
