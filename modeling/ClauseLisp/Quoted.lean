import ClauseLisp.Bytes

/-! Strings in double quotes, as programs write them. -/

namespace ClauseLisp

def escapeByte (c : UInt8) : Bytes :=
  if c = byte '"' then utf8 "\\\""
  else if c = byte '\\' then utf8 "\\\\"
  else if c = byte '\n' then utf8 "\\n"
  else if c = byte '\t' then utf8 "\\t"
  else if c = byte '\r' then utf8 "\\r"
  else [c]

def quoted (s : Bytes) : Bytes := byte '"' :: s.flatMap escapeByte ++ [byte '"']

end ClauseLisp
