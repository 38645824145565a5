import Monkey.Session

/-!
# Transcripts of interactive sessions

Input is taken line by line. In front of every line, and of the end of the
input, stands a prompt, and behind a line stands the text of its reply: nothing,
one line, or a line for each syntax error, set off by a tab. A line that is not
valid UTF-8 ends the session.
-/

set_option autoImplicit false

namespace Monkey

def Reply.text : Reply → String
  | rejected errors => String.join (errors.map fun error => "\t" ++ error.message ++ "\n")
  | failed error => (Value.error error).text ++ "\n"
  | finished none => ""
  | finished (some value) => value.text ++ "\n"

namespace Bytes

/-- A line that a line feed has ended, without the carriage return before it;
its bytes are given last to first. -/
def endedLine : Bytes → Bytes
  | 13 :: read => read.reverse
  | read => read.reverse

/-- The lines of an input of which `read`, last to first, has been read since
the last line feed. The rest after the last line feed is a line unless it is
empty. -/
def linesAfter (read : Bytes) : Bytes → List Bytes
  | [] => if read.isEmpty then [] else [read.reverse]
  | byte :: rest =>
    if byte = 10 then endedLine read :: linesAfter [] rest else linesAfter (byte :: read) rest

def lines (input : Bytes) : List Bytes := linesAfter [] input

def isText (bytes : Bytes) : Bool := (ByteArray.mk bytes.toArray).validateUTF8

end Bytes

inductive InputError where
  | notText
  deriving DecidableEq, Repr

def InputError.message : InputError → String
  | notText => "stream did not contain valid UTF-8"

/-- What a line leads to: a reply and the session after it, the end of the
session, or no answer within the limit on active calls. -/
inductive Turn where
  | reply (reply : Reply) (session : Session)
  | broken (error : InputError)
  | exhausted

def Session.turn (session : Session) (limit : Nat) (scope : ScopeId) (line : Bytes) : Turn :=
  if line.isText then
    match session.interpret limit line scope with
    | some (reply, session) => .reply reply session
    | none => .exhausted
  else .broken .notText

structure Transcript where
  output : String
  error : Option InputError

namespace Transcript

def prompt : String := ">> "

def ofLines (limit : Nat) (scope : ScopeId) : Session → List Bytes → Option Transcript
  | _, [] => some ⟨prompt, none⟩
  | session, line :: rest =>
    match session.turn limit scope line with
    | .reply reply session =>
      (ofLines limit scope session rest).map fun later =>
        ⟨prompt ++ reply.text ++ later.output, later.error⟩
    | .broken error => some ⟨prompt, some error⟩
    | .exhausted => none

def ofInput (limit : Nat) (input : Bytes) : Option Transcript :=
  let (scope, session) := Session.empty.root
  ofLines limit scope session input.lines

end Transcript

end Monkey
