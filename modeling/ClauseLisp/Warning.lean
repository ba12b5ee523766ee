import ClauseLisp.Location

/-! Warnings. At most one is shown for a location. -/

namespace ClauseLisp

structure Warning where
  loc : Location
  message : Bytes
deriving DecidableEq

namespace Warning

def shadows (loc : Location) (name : Bytes) : Warning :=
  ⟨loc, utf8 "Binding " ++ name ++ utf8 " shadows the special form of the same name"⟩

def condWithoutDefault (loc : Location) : Warning :=
  ⟨loc, utf8 "cond without a true clause raises an error when nothing matches"⟩

def line (w : Warning) : Bytes :=
  utf8 "Warning: " ++ w.loc.describe w.message ++ utf8 "\n"

def record (shown : List Warning) (w : Warning) : List Warning :=
  if shown.any (·.loc = w.loc) then shown else shown ++ [w]

def recordAll (shown raised : List Warning) : List Warning := raised.foldl record shown

end Warning
end ClauseLisp
