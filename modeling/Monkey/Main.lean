import Monkey.Report

/-!
# The interactive program

Reads lines from standard input until it ends, and answers each at once.
-/

set_option autoImplicit false

namespace Monkey.Console

/-- More calls than fit on any stack. -/
def callLimit : Nat := 1000000000

/-- Reads up to the next line feed. The bytes come last to first, and the flag
tells that there was a line feed. -/
partial def readLine (input : IO.FS.Stream) (read : Bytes) : IO (Bytes × Bool) := do
  let chunk ← input.read 1
  match chunk.data.toList with
  | [] => pure (read, false)
  | byte :: _ => if byte = 10 then pure (read, true) else readLine input (byte :: read)

def finish (error : Option InputError) : IO UInt32 := do
  let (diagnostics, status) := Report.ending error
  (← IO.getStderr).putStr diagnostics
  pure status

partial def converse (scope : ScopeId) (session : Session) : IO UInt32 := do
  let output ← IO.getStdout
  output.putStr Transcript.prompt
  output.flush
  let (read, ended) ← readLine (← IO.getStdin) []
  if !ended && read.isEmpty then finish none
  else
    let line := if ended then Bytes.endedLine read else read.reverse
    match session.turn callLimit scope line with
    | .reply reply session =>
      output.putStr reply.text
      converse scope session
    | .broken error => finish (some error)
    | .exhausted =>
      (← IO.getStderr).putStr "too many active calls\n"
      pure 1

end Monkey.Console

def main : IO UInt32 := do
  (← IO.getStdout).putStr Monkey.Report.greeting
  let (scope, session) := Monkey.Session.empty.root
  Monkey.Console.converse scope session
