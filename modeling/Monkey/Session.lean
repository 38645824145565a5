import Monkey.Parser
import Monkey.Eval

/-!
# Sessions

A session is what lasts between programs: the scopes, and how many programs have
been taken in. The count numbers the programs, so that two literals are never
mistaken for one another, however alike they are.
-/

set_option autoImplicit false

namespace Monkey

inductive Reply where
  | rejected (errors : List ParseError)
  | failed (error : EvalError)
  | finished (value : Option Value)

structure Session where
  scopes : Scopes
  programs : Nat

namespace Session

def empty : Session := ⟨#[], 0⟩

def root (session : Session) : ScopeId × Session :=
  (session.scopes.size, ⟨session.scopes.create none, session.programs⟩)

def enclose (session : Session) (outer : ScopeId) : ScopeId × Session :=
  (session.scopes.size, ⟨session.scopes.create (some outer), session.programs⟩)

def get (session : Session) (scope : ScopeId) (name : String) : Option Value :=
  session.scopes.get scope name

def set (session : Session) (scope : ScopeId) (name : String) (value : Value) : Session :=
  ⟨session.scopes.set scope name value, session.programs⟩

/-- A function with a literal of its own, which counts as a program. -/
def function (session : Session) (params : List String) (body : Block) (scope : ScopeId) :
    Closure × Session :=
  (⟨params, body, scope, ⟨session.programs, []⟩⟩, ⟨session.scopes, session.programs + 1⟩)

/-- Evaluates a program in a scope, with at most `limit` calls active at once.
There is no answer if that is not enough. -/
def evaluate (session : Session) (limit : Nat) (program : Program) (scope : ScopeId) :
    Option (Reply × Session) :=
  match program.eval limit session.programs scope session.scopes with
  | .done value scopes => some (.finished value, ⟨scopes, session.programs + 1⟩)
  | .failed error scopes => some (.failed error, ⟨scopes, session.programs + 1⟩)
  | .exhausted => none

def interpret (session : Session) (limit : Nat) (source : Bytes) (scope : ScopeId) :
    Option (Reply × Session) :=
  match Program.ofBytes source with
  | .error errors => some (.rejected errors, session)
  | .ok program => session.evaluate limit program scope

end Session

end Monkey
