import ClauseLisp.Value.Equality

/-! Matching values against patterns. A match extends a frame by the variables of the pattern, the
last one innermost. -/

namespace ClauseLisp.Pattern

mutual

def match? : Pattern → Value → ValueFrame → Option ValueFrame
  | .variable name, v, f => some ((name, v) :: f)
  | .wildcard, _, f => some f
  | .literal d, v, f => if d.toValue.equal v then some f else none
  | .list ps none, .list vs, f => matchAll? ps vs f
  | .list ps (some rest), .list vs, f =>
    if vs.length < ps.length then none
    else (matchAll? ps (vs.take ps.length) f).bind (match? rest (.list (vs.drop ps.length)))
  | .tuple ps, .tuple vs, f => matchAll? ps vs f
  | _, _, _ => none

def matchAll? : List Pattern → List Value → ValueFrame → Option ValueFrame
  | [], [], f => some f
  | p :: ps, v :: vs, f => (match? p v f).bind (matchAll? ps vs)
  | _, _, _ => none

end

end ClauseLisp.Pattern
