import Monkey.Scope

/-!
# Evaluation

A computation reads and changes the scopes. It is done with a result, or fails
with a runtime error, and either way leaves scopes behind; or it is cut off,
because more calls were active at once than it was allowed.

Evaluation follows the tree. What a function value does when it is called is a
parameter of it, so that only the number of active calls bounds the recursion.
A `return` wraps its value, and every operand position hands a wrapped value up
at once, past all that would have followed.
-/

set_option autoImplicit false

namespace Monkey

inductive Outcome (α : Type) where
  | done (result : α) (scopes : Scopes)
  | failed (error : EvalError) (scopes : Scopes)
  | exhausted

def Eval (α : Type) : Type := Scopes → Outcome α

namespace Eval

def pure {α : Type} (result : α) : Eval α := fun scopes => .done result scopes

def bind {α β : Type} (first : Eval α) (next : α → Eval β) : Eval β := fun scopes =>
  match first scopes with
  | .done result scopes => next result scopes
  | .failed error scopes => .failed error scopes
  | .exhausted => .exhausted

def fail {α : Type} (error : EvalError) : Eval α := fun scopes => .failed error scopes

def exhausted {α : Type} : Eval α := fun _ => .exhausted

def ofExcept {α : Type} : Except EvalError α → Eval α
  | .ok result => pure result
  | .error error => fail error

def lookup (scope : ScopeId) (name : String) : Eval Value := fun scopes =>
  match scopes.get scope name with
  | some value => .done value scopes
  | none => .failed (.unbound name) scopes

def assign (scope : ScopeId) (name : String) (value : Value) : Eval Unit := fun scopes =>
  .done () (scopes.set scope name value)

def enclose (outer : ScopeId) : Eval ScopeId := fun scopes =>
  .done scopes.size (scopes.create (some outer))

/-- Goes on with the value of an operand, unless it is on its way out. -/
def operand (value : Eval Value) (next : Value → Eval Value) : Eval Value :=
  value.bind fun
    | .returned v => pure (.returned v)
    | v => next v

end Eval

abbrev Call := Closure → List Value → Eval Value

def applyPrefix : Operator → Value → Except EvalError Value
  | .not, v => .ok (.bool (!v.truthy))
  | .minus, .int n => .ok (.int (-n))
  | o, v => .error (.unknownPrefix o v.typeName)

/-- Integer arithmetic wraps around at 64 bits, and quotients are cut off
towards zero. -/
def applyInfix : Operator → Value → Value → Except EvalError Value
  | .plus, .int a, .int b => .ok (.int (a + b))
  | .minus, .int a, .int b => .ok (.int (a - b))
  | .times, .int a, .int b => .ok (.int (a * b))
  | .divide, .int a, .int b => if b = 0 then .error .divisionByZero else .ok (.int (a / b))
  | .less, .int a, .int b => .ok (.bool (decide (a < b)))
  | .greater, .int a, .int b => .ok (.bool (decide (b < a)))
  | .equal, .int a, .int b => .ok (.bool (a == b))
  | .notEqual, .int a, .int b => .ok (.bool (a != b))
  | .equal, .bool a, .bool b => .ok (.bool (a == b))
  | .notEqual, .bool a, .bool b => .ok (.bool (a != b))
  | o, a, b => .error (.operands a.typeName o b.typeName)

mutual

def Expr.eval (call : Call) (site : Site) (scope : ScopeId) : Expr → Eval Value
  | .ident name => .lookup scope name
  | .int value => .pure (.int value)
  | .bool value => .pure (.bool value)
  | .prefixOp o e =>
    (e.eval call (site.child 0) scope).operand fun v => .ofExcept (applyPrefix o v)
  | .infixOp o e f =>
    (e.eval call (site.child 0) scope).operand fun v =>
      (f.eval call (site.child 1) scope).operand fun w => .ofExcept (applyInfix o v w)
  | .cond c a none =>
    (c.eval call (site.child 0) scope).operand fun v =>
      if v.truthy then (Stmt.evalAll call (site.child 1) scope a none).bind fun r =>
        .pure (r.getD .null)
      else .pure .null
  | .cond c a (some b) =>
    (c.eval call (site.child 0) scope).operand fun v =>
      if v.truthy then (Stmt.evalAll call (site.child 1) scope a none).bind fun r =>
        .pure (r.getD .null)
      else (Stmt.evalAll call (site.child 2) scope b none).bind fun r => .pure (r.getD .null)
  | .fn ps body => .pure (.function ⟨ps, body, scope, site⟩)
  | .call f es =>
    (f.eval call (site.child 0) scope).operand fun
      | .function closure => Expr.evalAll call (site.child 1) scope es fun vs => call closure vs
      | v => .fail (.notAFunction v.typeName)

def Expr.evalAll (call : Call) (site : Site) (scope : ScopeId) :
    List Expr → (List Value → Eval Value) → Eval Value
  | [], next => next []
  | e :: es, next =>
    (e.eval call (site.child 0) scope).operand fun v =>
      Expr.evalAll call (site.child 1) scope es fun vs => next (v :: vs)

def Stmt.eval (call : Call) (site : Site) (scope : ScopeId) : Stmt → Eval (Option Value)
  | .bind name e =>
    (e.eval call (site.child 0) scope).bind fun
      | .returned v => .pure (some (.returned v))
      | v => (Eval.assign scope name v).bind fun _ => .pure none
  | .ret none => .pure (some (.returned .null))
  | .ret (some e) =>
    (e.eval call (site.child 0) scope).bind fun v => .pure (some (.returned v))
  | .expr e => (e.eval call (site.child 0) scope).bind fun v => .pure (some v)
  | .block body => Stmt.evalAll call (site.child 0) scope body none

/-- Evaluates statements in order, up to the first that returns. The value is
that of the last one, or `before` if there is none. -/
def Stmt.evalAll (call : Call) (site : Site) (scope : ScopeId) :
    List Stmt → Option Value → Eval (Option Value)
  | [], before => .pure before
  | s :: rest, _ =>
    (s.eval call (site.child 0) scope).bind fun
      | some (.returned v) => .pure (some (.returned v))
      | r => Stmt.evalAll call (site.child 1) scope rest r

end

theorem Stmt.evalAll_before {call : Call} {scope : ScopeId} {ss : List Stmt} (h : ss ≠ [])
    (site : Site) (before other : Option Value) :
    Stmt.evalAll call site scope ss before = Stmt.evalAll call site scope ss other := by
  cases ss with
  | nil => exact absurd rfl h
  | cons stmt ss => rfl

namespace Closure

/-- Binds parameters to arguments, the last one where a name occurs twice. -/
def assignAll (scope : ScopeId) : List (String × Value) → Eval Unit
  | [] => .pure ()
  | (name, value) :: rest => (Eval.assign scope name value).bind fun _ => assignAll scope rest

/-- Calls a function, where `call` stands for the calls inside of it. A `return`
ends here, and a body without a value yields `null`. -/
def enter (call : Call) (closure : Closure) (arguments : List Value) : Eval Value :=
  if closure.params.length = arguments.length then
    (Eval.enclose closure.scope).bind fun scope =>
      (assignAll scope (closure.params.zip arguments)).bind fun _ =>
        (Stmt.evalAll call (closure.origin.child 0) scope closure.body none).bind fun r =>
          .pure ((r.map Value.unwrap).getD .null)
  else .fail (.arity arguments.length closure.params.length)

/-- Calls a function with at most `limit` calls active at once. -/
def apply (limit : Nat) : Call :=
  match limit with
  | 0 => fun _ _ => .exhausted
  | limit + 1 => fun closure arguments => closure.enter (apply limit) arguments

end Closure

/-- Evaluates a program in a scope. A `return` outside of all functions ends it. -/
def Program.eval (limit : Nat) (program : Program) (number : Nat) (scope : ScopeId) :
    Eval (Option Value) :=
  (Stmt.evalAll (Closure.apply limit) ⟨number, []⟩ scope program none).bind fun r =>
    .pure (r.map Value.unwrap)

/-! ### The beginning of a call -/

def Scopes.setAll (s : Scopes) (i : ScopeId) : List (String × Value) → Scopes
  | [] => s
  | (name, v) :: rest => (s.set i name v).setAll i rest

theorem Closure.assignAll_eq (i : ScopeId) (bindings : List (String × Value)) (s : Scopes) :
    assignAll i bindings s = .done () (s.setAll i bindings) := by
  induction bindings generalizing s with
  | nil => rfl
  | cons binding rest ih => exact ih (s.set i binding.1 binding.2)

def Eval.opened (outer : ScopeId) (bindings : List (String × Value)) : Eval ScopeId :=
  fun s => .done s.size ((s.create (some outer)).setAll s.size bindings)

theorem Eval.enclose_assignAll {α : Type} (outer : ScopeId) (bindings : List (String × Value))
    (next : ScopeId → Eval α) :
    ((Eval.enclose outer).bind fun scope =>
      (Closure.assignAll scope bindings).bind fun _ => next scope) =
      (Eval.opened outer bindings).bind next := by
  funext s
  simp only [Eval.bind, Eval.enclose, Closure.assignAll_eq, Eval.opened]

end Monkey
