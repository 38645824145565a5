import Monkey.Eval

/-!
# Evaluation with raised returns

The same language with `return` as an exception: it raises the value of its
operand, and the function call or program around it catches that value. Operands
need not look at what they get, since nothing that comes back is on its way out.

The two evaluations agree on programs whose returns are unnested: no `return`
stands in the operand of another one, unless a function literal lies between.
-/

set_option autoImplicit false

namespace Monkey

inductive Raised (α : Type) where
  | done (result : α) (scopes : Scopes)
  | raised (value : Value) (scopes : Scopes)
  | failed (error : EvalError) (scopes : Scopes)
  | exhausted

def Raising (α : Type) : Type := Scopes → Raised α

namespace Raising

def pure {α : Type} (result : α) : Raising α := fun scopes => .done result scopes

def bind {α β : Type} (first : Raising α) (next : α → Raising β) : Raising β := fun scopes =>
  match first scopes with
  | .done result scopes => next result scopes
  | .raised value scopes => .raised value scopes
  | .failed error scopes => .failed error scopes
  | .exhausted => .exhausted

def raise {α : Type} (value : Value) : Raising α := fun scopes => .raised value scopes

def caught {α : Type} (body : Raising α) (result : Value → α) : Raising α := fun scopes =>
  match body scopes with
  | .raised value scopes => .done (result value) scopes
  | outcome => outcome

def ofEval {α : Type} (computation : Eval α) : Raising α := fun scopes =>
  match computation scopes with
  | .done result scopes => .done result scopes
  | .failed error scopes => .failed error scopes
  | .exhausted => .exhausted

theorem pure_bind {α β : Type} (x : α) (next : α → Raising β) : (pure x).bind next = next x := rfl

theorem bind_pure {α : Type} (m : Raising α) : m.bind pure = m := by
  funext scopes
  simp only [bind]
  cases m scopes <;> rfl

theorem bind_assoc {α β γ : Type} (m : Raising α) (f : α → Raising β) (g : β → Raising γ) :
    (m.bind f).bind g = m.bind fun x => (f x).bind g := by
  funext scopes
  simp only [bind]
  cases m scopes <;> rfl

abbrev Call := Closure → List Value → Raising Value

mutual

def expr (call : Call) (site : Site) (scope : ScopeId) : Expr → Raising Value
  | .ident name => .ofEval (.lookup scope name)
  | .int value => .pure (.int value)
  | .bool value => .pure (.bool value)
  | .prefixOp o e =>
    (expr call (site.child 0) scope e).bind fun v => .ofEval (.ofExcept (applyPrefix o v))
  | .infixOp o e f =>
    (expr call (site.child 0) scope e).bind fun v =>
      (expr call (site.child 1) scope f).bind fun w => .ofEval (.ofExcept (applyInfix o v w))
  | .cond c a none =>
    (expr call (site.child 0) scope c).bind fun v =>
      if v.truthy then
        (stmts call (site.child 1) scope a none).bind fun r => .pure (r.getD .null)
      else .pure .null
  | .cond c a (some b) =>
    (expr call (site.child 0) scope c).bind fun v =>
      if v.truthy then
        (stmts call (site.child 1) scope a none).bind fun r => .pure (r.getD .null)
      else (stmts call (site.child 2) scope b none).bind fun r => .pure (r.getD .null)
  | .fn ps body => .pure (.function ⟨ps, body, scope, site⟩)
  | .call f es =>
    (expr call (site.child 0) scope f).bind fun
      | .function closure =>
        (exprs call (site.child 1) scope es).bind fun vs => call closure vs
      | v => .ofEval (.fail (.notAFunction v.typeName))

def exprs (call : Call) (site : Site) (scope : ScopeId) : List Expr → Raising (List Value)
  | [] => .pure []
  | e :: es =>
    (expr call (site.child 0) scope e).bind fun v =>
      (exprs call (site.child 1) scope es).bind fun vs => .pure (v :: vs)

def stmt (call : Call) (site : Site) (scope : ScopeId) : Stmt → Raising (Option Value)
  | .bind name e =>
    (expr call (site.child 0) scope e).bind fun v =>
      (Raising.ofEval (.assign scope name v)).bind fun _ => .pure none
  | .ret none => .raise .null
  | .ret (some e) => (expr call (site.child 0) scope e).bind fun v => .raise v
  | .expr e => (expr call (site.child 0) scope e).bind fun v => .pure (some v)
  | .block body => stmts call (site.child 0) scope body none

def stmts (call : Call) (site : Site) (scope : ScopeId) :
    List Stmt → Option Value → Raising (Option Value)
  | [], before => .pure before
  | s :: rest, _ =>
    (stmt call (site.child 0) scope s).bind fun r => stmts call (site.child 1) scope rest r

end

def enter (call : Call) (closure : Closure) (arguments : List Value) : Raising Value :=
  if closure.params.length = arguments.length then
    (Raising.ofEval (.enclose closure.scope)).bind fun scope =>
      (Raising.ofEval (Closure.assignAll scope (closure.params.zip arguments))).bind fun _ =>
        ((stmts call (closure.origin.child 0) scope closure.body none).caught some).bind fun r =>
          .pure (r.getD .null)
  else .ofEval (.fail (.arity arguments.length closure.params.length))

def apply (limit : Nat) : Call :=
  match limit with
  | 0 => fun _ _ _ => .exhausted
  | limit + 1 => fun closure arguments => enter (apply limit) closure arguments

def program (limit : Nat) (program : Program) (number : Nat) (scope : ScopeId) :
    Raising (Option Value) :=
  (stmts (apply limit) ⟨number, []⟩ scope program none).caught some

end Raising

mutual

/-- No `return` outside of function literals. -/
def Expr.returnFree : Expr → Bool
  | .ident _ => true
  | .int _ => true
  | .bool _ => true
  | .prefixOp _ e => e.returnFree
  | .infixOp _ a b => a.returnFree && b.returnFree
  | .cond c a none => c.returnFree && Stmt.allReturnFree a
  | .cond c a (some b) => c.returnFree && Stmt.allReturnFree a && Stmt.allReturnFree b
  | .fn _ _ => true
  | .call f es => f.returnFree && Expr.allReturnFree es

def Expr.allReturnFree : List Expr → Bool
  | [] => true
  | e :: es => e.returnFree && Expr.allReturnFree es

def Stmt.returnFree : Stmt → Bool
  | .bind _ e => e.returnFree
  | .ret _ => false
  | .expr e => e.returnFree
  | .block body => Stmt.allReturnFree body

def Stmt.allReturnFree : List Stmt → Bool
  | [] => true
  | s :: ss => s.returnFree && Stmt.allReturnFree ss

end

mutual

/-- No `return` in the operand of another one without a function literal between. -/
def Expr.unnested : Expr → Bool
  | .ident _ => true
  | .int _ => true
  | .bool _ => true
  | .prefixOp _ e => e.unnested
  | .infixOp _ a b => a.unnested && b.unnested
  | .cond c a none => c.unnested && Stmt.allUnnested a
  | .cond c a (some b) => c.unnested && Stmt.allUnnested a && Stmt.allUnnested b
  | .fn _ body => Stmt.allUnnested body
  | .call f es => f.unnested && Expr.allUnnested es

def Expr.allUnnested : List Expr → Bool
  | [] => true
  | e :: es => e.unnested && Expr.allUnnested es

def Stmt.unnested : Stmt → Bool
  | .bind _ e => e.unnested
  | .ret none => true
  | .ret (some e) => e.returnFree && e.unnested
  | .expr e => e.unnested
  | .block body => Stmt.allUnnested body

def Stmt.allUnnested : List Stmt → Bool
  | [] => true
  | s :: ss => s.unnested && Stmt.allUnnested ss

end

end Monkey
