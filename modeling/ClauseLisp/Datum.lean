import ClauseLisp.Form

/-! Data: what a quoted form stands for. -/

namespace ClauseLisp

inductive Datum where
  | nil
  | boolean (b : Bool)
  | integer (i : Int64)
  | float (d : Binary64)
  | string (s : Bytes)
  | tag (name : Bytes)
  | list (elements : List Datum)
  | tuple (elements : List Datum)
deriving Inhabited

namespace Datum

def ofNumber : Number → Datum
  | .integer i => integer i
  | .float d => float d

def ofAtom : Atom → Datum
  | .nil => nil
  | .boolean b => boolean b
  | .number n => ofNumber n
  | .string s => string s
  | .symbol name => tag name
  | .keyword name => tag name
  | .interpolation name => list [tag (utf8 "interpolate"), tag name]

mutual

/-- Lists and vectors are lists, and a mark is a list of its name and its datum. -/
def ofForm : Form → Datum
  | .atom _ a => ofAtom a
  | .sequence _ .brace xs => tuple (ofForms xs)
  | .sequence _ _ xs => list (ofForms xs)
  | .marked _ m x => list [tag m.kind, ofForm x]

def ofForms : List Form → List Datum
  | [] => []
  | x :: xs => ofForm x :: ofForms xs

end

end Datum
end ClauseLisp
