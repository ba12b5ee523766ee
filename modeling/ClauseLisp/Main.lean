import ClauseLisp.CommandLine

/-! The program: arguments, standard input and files around `CommandLine`. -/

namespace ClauseLisp.CommandLine

def write (s : Bytes) : IO Unit := do
  let out ← IO.getStdout
  out.write ⟨s.toArray⟩
  out.flush

/-- The content of a file that opens. One that cannot be read, such as a directory, is empty. -/
def readOpened (handle : IO.FS.Handle) : IO Bytes := do
  try return (← handle.readBinToEnd).toList
  catch _ => return []

def readFile? (name : String) : IO (Option Bytes) := do
  try return some (← readOpened (← IO.FS.Handle.mk name .read))
  catch _ => return none

partial def readLine? (stdin : IO.FS.Stream) (line : Bytes) : IO (Option Bytes) := do
  match (← stdin.read 1).toList with
  | [] => return if line.isEmpty then none else some line.reverse
  | c :: _ => if c = byte '\n' then return some line.reverse else readLine? stdin (c :: line)

partial def converse (o : Options) (stdin : IO.FS.Stream) (p : Prompt) : IO Unit := do
  write p.text
  match ← readLine? stdin [] with
  | none => return
  | some line =>
    let (shown, p) := p.feed o line
    write shown
    converse o stdin p

def finish (e : Exit) : IO UInt32 := do
  write e.output
  return e.code

end ClauseLisp.CommandLine

open ClauseLisp ClauseLisp.CommandLine in
def main (args : List String) : IO UInt32 := do
  match plan (args.map utf8) with
  | .usage => finish ⟨1, usage (utf8 "clauselisp")⟩
  | .expression o source => finish (runOnce o source expressionName)
  | .file o name =>
    match ← readFile? (args.find? (utf8 · = name) |>.getD "") with
    | some source => finish (runOnce o source name)
    | none => finish (cannotOpen name)
  | .prompt o =>
    converse o (← IO.getStdin) ⟨.start o.limit, []⟩
    return 0
