import ClauseLisp.Form
import ClauseLisp.Token

/-! Reading forms from tokens. The reader keeps the brackets and marks that are still open on a
stack; its height is the number of levels around the next token. -/

namespace ClauseLisp

def maxNesting : Nat := 1000

inductive ParseError where
  | unclosed (b : Bracket)
  | unexpectedEnd
  | unexpectedToken (l : Lexeme)
  | remaining (ls : List Lexeme)
  | nestingTooDeep
  | noForm
  | severalForms (n : Nat)

def ParseError.cause : ParseError → Bytes
  | unclosed b => utf8 "Unclosed " ++ b.kind ++ utf8 ": missing " ++ [b.closer]
  | unexpectedEnd => utf8 "Unexpected end of input"
  | unexpectedToken l => utf8 "Unexpected token: " ++ l.text
  | remaining ls =>
    utf8 "Unexpected tokens remaining: " ++ (utf8 " ").intercalate (ls.map Lexeme.text)
  | nestingTooDeep => utf8 "Nesting too deep: more than " ++ Bytes.decimal maxNesting ++ utf8 " levels"
  | noForm => utf8 "Expected an expression, got end of input"
  | severalForms n => utf8 "Expected a single expression, got " ++ Bytes.decimal n

structure ParseFault where
  error : ParseError
  loc : Location

def ParseFault.message (f : ParseFault) : Bytes :=
  (f.loc.describe (utf8 "Parse error: " ++ f.error.cause)).untilZero

inductive ReadFault where
  | lex (f : LexFault)
  | parse (f : ParseFault)

def ReadFault.message : ReadFault → Bytes
  | lex f => f.message
  | parse f => f.message

namespace Form

/-- A bracket with the elements read so far, the last one first, or a mark before its datum. -/
inductive Frame where
  | sequence (loc : Location) (b : Bracket) (elements : List Form)
  | mark (loc : Location) (m : Mark)

def complete : List Frame → List Form → Form → List Frame × List Form
  | [], done, x => ([], x :: done)
  | .sequence loc b xs :: stack, done, x => (.sequence loc b (x :: xs) :: stack, done)
  | .mark loc m :: stack, done, x => complete stack done (.marked loc m x)

/-- Reads tokens inside the frames of `stack`, innermost first, after the complete forms `done`,
last first. -/
def readFrom : List Frame → List Form → List Token → Except ParseFault (List Form)
  | [], done, [] => .ok done.reverse
  | .sequence loc b _ :: _, _, [] => .error ⟨.unclosed b, loc⟩
  | .mark loc _ :: _, _, [] => .error ⟨.unexpectedEnd, loc⟩
  | stack, done, t :: ts =>
    match stack, t.lexeme with
    | [], .closing _ => .error ⟨.remaining ((t :: ts).map Token.lexeme), t.loc⟩
    | stack, l =>
      match closes? stack l with
      | some (x, outer) =>
        let (stack, done) := complete outer done x
        readFrom stack done ts
      | none =>
        if maxNesting ≤ stack.length then .error ⟨.nestingTooDeep, t.loc⟩
        else
          match l with
          | .opening b => readFrom (.sequence t.loc b [] :: stack) done ts
          | .mark m => readFrom (.mark t.loc m :: stack) done ts
          | .atom a =>
            let (stack, done) := complete stack done (.atom t.loc a)
            readFrom stack done ts
          | .closing b => .error ⟨.unexpectedToken (.closing b), t.loc⟩
where
  closes? : List Frame → Lexeme → Option (Form × List Frame)
    | .sequence loc b xs :: outer, .closing c =>
      if b = c then some (.sequence loc b xs.reverse, outer) else none
    | _, _ => none

def readTokens (ts : List Token) : Except ParseFault (List Form) := readFrom [] [] ts

def single : List Form → Except ParseFault Form
  | [] => .error ⟨.noForm, .unknown⟩
  | [x] => .ok x
  | x :: y :: zs => .error ⟨.severalForms (x :: y :: zs).length, y.loc⟩

def readAll (source file : Bytes) : Except ReadFault (List Form) := do
  let tokens ← (Token.tokenize source file).mapError ReadFault.lex
  (readTokens tokens).mapError ReadFault.parse

def read (source file : Bytes) : Except ReadFault Form := do
  let forms ← readAll source file
  (single forms).mapError ReadFault.parse

end Form
end ClauseLisp
