import ClauseLisp.Bytes

/-! Positions in a source text. Lines and columns count bytes from 1 in 32 bits and wrap. -/

namespace ClauseLisp

structure Location where
  file : Bytes
  line : UInt32
  column : UInt32
deriving DecidableEq, Inhabited

namespace Location

def unknown : Location := ⟨utf8 "<unknown>", 0, 0⟩

def start (file : Bytes) : Location := ⟨file, 1, 1⟩

def next (loc : Location) (c : UInt8) : Location :=
  if c = byte '\n' then { loc with line := loc.line + 1, column := 1 }
  else { loc with column := loc.column + 1 }

def advance (loc : Location) (s : Bytes) : Location := s.foldl next loc

@[simp] theorem advance_nil (loc : Location) : loc.advance [] = loc := rfl

@[simp] theorem advance_append (loc : Location) (s t : Bytes) :
    loc.advance (s ++ t) = (loc.advance s).advance t := by
  simp [advance]

def text (loc : Location) : Bytes :=
  (if loc.file = [] then utf8 "<unknown>" else loc.file) ++ utf8 ":" ++
    Bytes.decimal loc.line.toNat ++ utf8 ":" ++ Bytes.decimal loc.column.toNat

def describe (loc : Location) (message : Bytes) : Bytes := loc.text ++ utf8 ": " ++ message

end Location
end ClauseLisp
