import ClauseLisp.Form.Writer
import ClauseLisp.Session

/-! The command line: options, running a text, and a prompt that reads a line at a time. All of it
is a function of the arguments, the input and the files. -/

namespace ClauseLisp.CommandLine

inductive Mode where
  | evaluate | quote | compile
deriving DecidableEq

structure Options where
  mode : Mode := .evaluate
  warnings : Bool := false
  limit : Nat := Session.defaultLimit
  expression : Option Bytes := none
  file : Option Bytes := none

def isBlank (c : UInt8) : Bool := c == byte ' ' || (9 ≤ c && c ≤ 13)

def splitAnySign : Bytes → Bool × Bytes
  | [] => (false, [])
  | c :: s =>
    if c = byte '-' then (true, s) else if c = byte '+' then (false, s) else (false, c :: s)

def signedWord (negative : Bool) (n : Nat) : UInt64 := if negative then 0 - .ofNat n else .ofNat n

/-- The unsigned word at the front of a text, and the rest. Blanks and a sign may stand before its
digits, which have to denote a number below `2 ^ 64`. -/
def wordOfText? (s : Bytes) : Option (UInt64 × Bytes) :=
  let (negative, t) := splitAnySign (s.dropWhile isBlank)
  let digits := t.takeWhile Bytes.isDigit
  let n := Bytes.digitsValue digits
  if digits = [] ∨ Nat.pow 2 64 ≤ n then none
  else some (signedWord negative n, t.dropWhile Bytes.isDigit)

def depthOfText? (s : Bytes) : Option Nat :=
  match wordOfText? s with
  | some (n, []) => if n = 0 then none else some n.toNat
  | _ => none

def Options.take? (o : Options) (arg : Bytes) : Option Options :=
  if arg = utf8 "-q" then some { o with mode := .quote }
  else if arg = utf8 "-c" then some { o with mode := .compile }
  else if arg = utf8 "-w" then some { o with warnings := true }
  else if 1 < arg.length ∧ arg.head? = some (byte '-') then none
  else if o.file.isSome then none
  else some { o with file := some arg }

def Options.parse? (o : Options) : List Bytes → Option Options
  | [] => if o.file.isSome && o.expression.isSome then none else some o
  | [arg] =>
    if arg = utf8 "-e" ∨ arg = utf8 "-d" then none
    else (o.take? arg).bind fun o => o.parse? []
  | arg :: value :: rest =>
    if arg = utf8 "-e" then { o with expression := some value }.parse? rest
    else if arg = utf8 "-d" then
      (depthOfText? value).bind fun limit => { o with limit }.parse? rest
    else (o.take? arg).bind fun o => o.parse? (value :: rest)

def usage (program : Bytes) : Bytes :=
  program ++ utf8 (" [<options> ...] [<file>]\n" ++
    "Options:\n" ++
    "  -e <expression>  -- run the expression instead of a file\n" ++
    "  -q               -- print the parsed S-expressions instead of running them\n" ++
    "  -c               -- print the transformed program instead of running it\n" ++
    "  -w               -- show warnings\n" ++
    "  -d <depth>       -- set the maximum call depth; default: 1000\n")

def errorLine (message : Bytes) : Bytes := utf8 "Error: " ++ message ++ utf8 "\n"

def transcript {α : Type} (o : Options) (act : Interaction α) (finish : α → Bytes) (s : Session) :
    Bytes × Bool × Session :=
  let (result, after) := act.run s
  let warnings := if o.warnings then (after.shown.drop s.shown.length).flatMap Warning.line else []
  let (printed, after) := after.takeOutput
  match result with
  | .ok a => (warnings ++ printed ++ finish a, true, after)
  | .error f => (warnings ++ printed ++ errorLine f.message, false, after)

def prettyLine (x : Form) : Bytes := x.pretty 0 ++ utf8 "\n"

def runSource (o : Options) (atPrompt : Bool) (source file : Bytes) (s : Session) :
    Bytes × Bool × Session :=
  match o.mode with
  | .quote => transcript o (Session.readAll source file) (·.flatMap prettyLine) s
  | .compile =>
    transcript o (Session.compile source file) (fun es => Expr.shownProgram es ++ utf8 "\n") s
  | .evaluate =>
    transcript o (Session.eval source file)
      (fun v => if atPrompt then v.text ++ utf8 "\n" else []) s

/-- The brackets of a text that are open at its end, where all kinds count alike. -/
def openBrackets (ts : List Token) : Int :=
  ts.foldl (fun n t =>
    match t.lexeme with
    | .opening _ => n + 1
    | .closing _ => n - 1
    | _ => n) 0

def stdinName : Bytes := utf8 "<stdin>"

def expressionName : Bytes := utf8 "<expression>"

structure Prompt where
  session : Session
  pending : Bytes

namespace Prompt

def text (p : Prompt) : Bytes := utf8 (if p.pending = [] then "> " else "  ")

def feed (o : Options) (p : Prompt) (line : Bytes) : Bytes × Prompt :=
  let source := p.pending ++ line ++ utf8 "\n"
  let waits : Bool := match Token.tokenize source stdinName with
    | .ok ts => decide (0 < openBrackets ts)
    | .error _ => false
  if waits then ([], { p with pending := source })
  else
    let (shown, _, session) := runSource o true source stdinName p.session
    (shown, ⟨session, []⟩)

def runLines (o : Options) (p : Prompt) : List Bytes → Bytes
  | [] => p.text
  | line :: lines =>
    let (shown, next) := p.feed o line
    p.text ++ shown ++ next.runLines o lines

end Prompt

def linesOf (s : Bytes) : List Bytes :=
  let pieces := s.splitOn (byte '\n')
  if pieces.getLast? = some [] then pieces.dropLast else pieces

structure Exit where
  code : UInt32
  output : Bytes

inductive Plan where
  | usage
  | expression (o : Options) (source : Bytes)
  | file (o : Options) (name : Bytes)
  | prompt (o : Options)

def plan (args : List Bytes) : Plan :=
  match Options.parse? {} args with
  | none => .usage
  | some o =>
    match o.expression, o.file with
    | some source, _ => .expression o source
    | none, some name => .file o name
    | none, none => .prompt o

def runOnce (o : Options) (source file : Bytes) : Exit :=
  let (shown, ok, _) := runSource o false source file (.start o.limit)
  ⟨if ok then 0 else 1, shown⟩

def cannotOpen (name : Bytes) : Exit := ⟨1, errorLine (utf8 "Can't open " ++ name).untilZero⟩

def run (program : Bytes) (args : List Bytes) (stdin : Bytes) (read? : Bytes → Option Bytes) :
    Exit :=
  match plan args with
  | .usage => ⟨1, usage program⟩
  | .expression o source => runOnce o source expressionName
  | .file o name =>
    match read? name with
    | some source => runOnce o source name
    | none => cannotOpen name
  | .prompt o => ⟨0, Prompt.runLines o ⟨.start o.limit, []⟩ (linesOf stdin)⟩

end ClauseLisp.CommandLine
