import ClauseLisp.Lexeme.Lemmas

/-! Tokens of a source text: its lexemes with the locations of their first bytes. -/

namespace ClauseLisp

structure LexFault where
  error : LexError
  loc : Location
deriving DecidableEq

def LexFault.message (f : LexFault) : Bytes :=
  (f.loc.describe (utf8 "Lex error: " ++ f.error.cause)).untilZero

namespace Token

theorem rest_shorter {s blank r : Bytes} {c : UInt8} {cut : Lexeme.Cut}
    (hgap : Lexeme.gap false s = (blank, c :: r)) (hscan : Lexeme.scan c r = .ok cut) :
    cut.rest.length < s.length := by
  have hle := Lexeme.gap_length_le false s
  rw [hgap] at hle
  exact Nat.lt_of_lt_of_le (Nat.lt_succ_of_le (Lexeme.scan_rest_length_le hscan)) hle

def tokenizeFrom (loc : Location) (s : Bytes) : Except LexFault (List Token) :=
  match hgap : Lexeme.gap false s with
  | (_, []) => .ok []
  | (blank, c :: r) =>
    let here := loc.advance blank
    match hscan : Lexeme.scan c r with
    | .error f => .error ⟨f.error, here.advance f.before⟩
    | .ok cut =>
      have := rest_shorter hgap hscan
      match tokenizeFrom (here.advance cut.taken) cut.rest with
      | .error f => .error f
      | .ok tokens => .ok (⟨cut.lexeme, here⟩ :: tokens)
termination_by s.length

def tokenize (source file : Bytes) : Except LexFault (List Token) :=
  tokenizeFrom (.start file) source

end Token
end ClauseLisp
