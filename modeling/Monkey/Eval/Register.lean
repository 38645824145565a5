import Monkey.Eval.Tracing

/-!
# A register of functions

What happens during an evaluation is gathered in a register: which scope each call has
opened, and where each function was created, that is, at which literal, in which scope
and within which call. The register is only written to.
-/

set_option autoImplicit false

namespace Monkey

/-- What statements are evaluated for: a call, by its number, or a program. -/
structure Activation where
  call : Option Nat
  scope : ScopeId

structure Creation where
  params : List String
  body : Block
  node : Site
  within : Activation

def Creation.closure (c : Creation) : Closure := ⟨c.params, c.body, c.within.scope, c.node⟩

structure Register where
  /-- What the calls have opened. They are numbered in the order of their beginning. -/
  opened : Array ScopeId
  /-- The calls that have not ended, the innermost first. -/
  active : List Nat
  creations : List Creation

namespace Register

def empty : Register := ⟨#[], [], []⟩

/-- What is evaluated at present in the scope is evaluated for the innermost call. -/
def activation (register : Register) (scope : ScopeId) : Activation :=
  ⟨register.active.head?, scope⟩

def note (register : Register) : Event → Register
  | .entered scope _ =>
    ⟨register.opened.push scope, register.opened.size :: register.active, register.creations⟩
  | .left _ _ => ⟨register.opened, register.active.tail, register.creations⟩
  | .created scope node ps body =>
    ⟨register.opened, register.active,
      ⟨ps, body, node, register.activation scope⟩ :: register.creations⟩
  | .bound _ _ _ => register
  | .returning _ => register

def noteAll (register : Register) (events : List Event) : Register := events.foldl note register

end Register

end Monkey
