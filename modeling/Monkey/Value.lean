import Monkey.Syntax.Rendering

/-!
# Values and runtime errors

A function value keeps its code, the scope it was created in, and the place of
its literal. Two functions are the same only if literal and scope are the same,
whatever their code; all other values are compared by content.

A value that a `return` carries is wrapped until the call that it ends takes the
wrapper off.
-/

set_option autoImplicit false

namespace Monkey

abbrev ScopeId := Nat

/-- The place of a node: the program it was read with, and the way to it from
the root of that program, the last turn first. -/
structure Site where
  program : Nat
  path : List Nat
  deriving DecidableEq, Repr

def Site.child (site : Site) (turn : Nat) : Site := ⟨site.program, turn :: site.path⟩

structure Closure where
  params : List String
  body : Block
  scope : ScopeId
  origin : Site

def Closure.same (f g : Closure) : Bool := f.origin == g.origin && f.scope == g.scope

inductive EvalError where
  | unbound (name : String)
  | unknownPrefix (operator : Operator) (operand : String)
  | unknownInfix (left : String) (operator : Operator) (right : String)
  | typeMismatch (left : String) (operator : Operator) (right : String)
  | notAFunction (type : String)
  | arity (got want : Nat)
  | divisionByZero
  deriving DecidableEq, Repr

namespace EvalError

def operands (left : String) (operator : Operator) (right : String) : EvalError :=
  if left = right then unknownInfix left operator right else typeMismatch left operator right

def message : EvalError → String
  | unbound name => "identifier not found: " ++ name
  | unknownPrefix o operand => "unknown operator: " ++ o.text ++ operand
  | unknownInfix left o right => "unknown operator: " ++ left ++ " " ++ o.text ++ " " ++ right
  | typeMismatch left o right => "type mismatch: " ++ left ++ " " ++ o.text ++ " " ++ right
  | notAFunction type => "not a function: " ++ type
  | arity got want =>
    "wrong number of arguments. got=" ++ toString got ++ ", want=" ++ toString want
  | divisionByZero => "division by zero"

end EvalError

inductive Value where
  | function (closure : Closure)
  | returned (value : Value)
  | error (error : EvalError)
  | int (value : Int64)
  | bool (value : Bool)
  | null

namespace Value

def typeName : Value → String
  | function _ => "FUNCTION"
  | returned _ => "RETURN_VALUE"
  | error _ => "ERROR"
  | int _ => "INTEGER"
  | bool _ => "BOOLEAN"
  | null => "NULL"

/-- A function shows its literal, and a wrapped value shows what it wraps. -/
def text : Value → String
  | function f => (Expr.fn f.params f.body).text
  | returned value => value.text
  | error e => "ERROR: " ++ e.message
  | int value => toString value.toInt
  | bool value => (Keyword.bool value).text
  | null => "null"

/-- Only `false` and `null` count as false. -/
def truthy : Value → Bool
  | bool false => false
  | null => false
  | _ => true

def isReturned : Value → Bool
  | returned _ => true
  | _ => false

def unwrap : Value → Value
  | returned value => value
  | value => value

/-- The function that a value is, or wraps. -/
def closure? : Value → Option Closure
  | function f => some f
  | returned value => value.closure?
  | _ => none

def same : Value → Value → Bool
  | function f, function g => f.same g
  | returned v, returned w => v.same w
  | error e, error f => e == f
  | int a, int b => a == b
  | bool a, bool b => a == b
  | null, null => true
  | _, _ => false

end Value

end Monkey
