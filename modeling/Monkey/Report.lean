import Monkey.Transcript

/-!
# The program as a whole

It greets, holds one interactive session, and reports an error that ended the
session on the side, together with its exit status.
-/

set_option autoImplicit false

namespace Monkey

structure Report where
  output : String
  diagnostics : String
  status : UInt32
  deriving DecidableEq, Repr

namespace Report

def greeting : String :=
  "Hello! This is the Monkey programming language!\nFeel free to type in commands\n"

def ending : Option InputError → String × UInt32
  | none => ("", 0)
  | some error => (error.message ++ "\n", 1)

def ofInput (limit : Nat) (input : Bytes) : Option Report :=
  (Transcript.ofInput limit input).map fun transcript =>
    ⟨greeting ++ transcript.output, (ending transcript.error).1, (ending transcript.error).2⟩

end Report

end Monkey
