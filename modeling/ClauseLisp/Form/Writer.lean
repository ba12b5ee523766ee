import ClauseLisp.Form
import ClauseLisp.Quoted

/-! Writing forms, on one line or with long lists spread over lines. -/

namespace ClauseLisp

def Atom.text : Atom → Bytes
  | .nil => utf8 "nil"
  | .boolean b => booleanText b
  | .number n => n.text
  | .string s => quoted s
  | .symbol name => name
  | .keyword name => utf8 ":" ++ name
  | .interpolation name => interpolationText name

namespace Form

/-- One line, or spread over lines that start at a level of indentation, two spaces each. -/
inductive Layout where
  | line
  | spread (indent : UInt32)

def isSimple (xs : List Form) : Bool := xs.length ≤ 3 && xs.all (!·.isSequence)

def spreads? : Layout → Bracket → List Form → Option UInt32
  | .spread indent, .paren, xs => if isSimple xs then none else some indent
  | _, _, _ => none

def levelPadding (indent : UInt32) : Bytes := Bytes.padding (indent * 2).toNat

mutual

def write (layout : Layout) : Form → Bytes
  | atom _ a => a.text
  | marked _ m x => m.text ++ write layout x
  | sequence _ b xs =>
    match spreads? layout b xs with
    | none => b.opener :: writeSpaced layout xs ++ [b.closer]
    | some indent =>
      utf8 "(\n" ++ writeLines (levelPadding indent ++ utf8 "  ") (.spread (indent + 1)) xs ++
        levelPadding indent ++ utf8 ")"

def writeSpaced (layout : Layout) : List Form → Bytes
  | [] => []
  | [x] => write layout x
  | x :: y :: zs => write layout x ++ utf8 " " ++ writeSpaced layout (y :: zs)

def writeLines (margin : Bytes) (layout : Layout) : List Form → Bytes
  | [] => []
  | x :: xs => margin ++ write layout x ++ utf8 "\n" ++ writeLines margin layout xs

end

def text (x : Form) : Bytes := write .line x

def pretty (indent : UInt32) (x : Form) : Bytes := write (.spread indent) x

end Form
end ClauseLisp
