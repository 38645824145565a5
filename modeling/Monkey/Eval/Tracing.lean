import Monkey.Eval

/-!
# Evaluation with a record

The same evaluation, which also writes down in order what happens on the way:
scopes opened by calls, names bound, calls that end, functions made, and the operand
of every `return`. The record changes nothing: without it, the two are equal.
-/

set_option autoImplicit false

namespace Monkey

inductive Event where
  /-- A call opens `scope` inside `outer`. -/
  | entered (scope outer : ScopeId)
  | bound (scope : ScopeId) (name : String) (value : Value)
  /-- The call that opened `scope` ends. -/
  | left (scope : ScopeId) (result : Except EvalError Value)
  /-- The function literal at `node` has been evaluated in `scope`. -/
  | created (scope : ScopeId) (node : Site) (params : List String) (body : Block)
  /-- A `return` has evaluated its operand to `value`. -/
  | returning (value : Value)

structure Run (α : Type) where
  outcome : Outcome α
  events : List Event

def Tracing (α : Type) : Type := Scopes → Run α

namespace Tracing

def plain {α : Type} (m : Tracing α) : Eval α := fun scopes => (m scopes).outcome

def silent {α : Type} (m : Eval α) : Tracing α := fun scopes => ⟨m scopes, []⟩

def pure {α : Type} (result : α) : Tracing α := silent (.pure result)

def bind {α β : Type} (first : Tracing α) (next : α → Tracing β) : Tracing β := fun scopes =>
  match first scopes with
  | ⟨.done result after, events⟩ =>
    ⟨(next result after).outcome, events ++ (next result after).events⟩
  | ⟨.failed error after, events⟩ => ⟨.failed error after, events⟩
  | ⟨.exhausted, events⟩ => ⟨.exhausted, events⟩

def record (event : Event) : Tracing Unit := fun scopes => ⟨.done () scopes, [event]⟩

def assign (scope : ScopeId) (name : String) (value : Value) : Tracing Unit := fun scopes =>
  ⟨Eval.assign scope name value scopes, [.bound scope name value]⟩

def enclose (outer : ScopeId) : Tracing ScopeId := fun scopes =>
  ⟨Eval.enclose outer scopes, [.entered scopes.size outer]⟩

def create (scope : ScopeId) (node : Site) (params : List String) (body : Block) :
    Tracing Value := fun scopes =>
  ⟨.done (.function ⟨params, body, scope, node⟩) scopes, [.created scope node params body]⟩

def leaving (scope : ScopeId) (body : Tracing Value) : Tracing Value := fun scopes =>
  match body scopes with
  | ⟨.done value after, events⟩ => ⟨.done value after, events ++ [.left scope (.ok value)]⟩
  | ⟨.failed error after, events⟩ =>
    ⟨.failed error after, events ++ [.left scope (.error error)]⟩
  | ⟨.exhausted, events⟩ => ⟨.exhausted, events⟩

def operand (value : Tracing Value) (next : Value → Tracing Value) : Tracing Value :=
  value.bind fun
    | .returned v => pure (.returned v)
    | v => next v

abbrev Call := Closure → List Value → Tracing Value

def Call.plain (call : Call) : Monkey.Call := fun closure arguments =>
  (call closure arguments).plain

mutual

def expr (call : Call) (site : Site) (scope : ScopeId) : Expr → Tracing Value
  | .ident name => silent (.lookup scope name)
  | .int value => pure (.int value)
  | .bool value => pure (.bool value)
  | .prefixOp o e =>
    (expr call (site.child 0) scope e).operand fun v => silent (.ofExcept (applyPrefix o v))
  | .infixOp o e f =>
    (expr call (site.child 0) scope e).operand fun v =>
      (expr call (site.child 1) scope f).operand fun w => silent (.ofExcept (applyInfix o v w))
  | .cond c a none =>
    (expr call (site.child 0) scope c).operand fun v =>
      if v.truthy then (stmts call (site.child 1) scope a none).bind fun r => pure (r.getD .null)
      else pure .null
  | .cond c a (some b) =>
    (expr call (site.child 0) scope c).operand fun v =>
      if v.truthy then (stmts call (site.child 1) scope a none).bind fun r => pure (r.getD .null)
      else (stmts call (site.child 2) scope b none).bind fun r => pure (r.getD .null)
  | .fn ps body => create scope site ps body
  | .call f es =>
    (expr call (site.child 0) scope f).operand fun
      | .function closure => exprs call (site.child 1) scope es fun vs => call closure vs
      | v => silent (.fail (.notAFunction v.typeName))

def exprs (call : Call) (site : Site) (scope : ScopeId) :
    List Expr → (List Value → Tracing Value) → Tracing Value
  | [], next => next []
  | e :: es, next =>
    (expr call (site.child 0) scope e).operand fun v =>
      exprs call (site.child 1) scope es fun vs => next (v :: vs)

def stmt (call : Call) (site : Site) (scope : ScopeId) : Stmt → Tracing (Option Value)
  | .bind name e =>
    (expr call (site.child 0) scope e).bind fun
      | .returned v => pure (some (.returned v))
      | v => (assign scope name v).bind fun _ => pure none
  | .ret none => (record (.returning .null)).bind fun _ => pure (some (.returned .null))
  | .ret (some e) =>
    (expr call (site.child 0) scope e).bind fun v =>
      (record (.returning v)).bind fun _ => pure (some (.returned v))
  | .expr e => (expr call (site.child 0) scope e).bind fun v => pure (some v)
  | .block body => stmts call (site.child 0) scope body none

def stmts (call : Call) (site : Site) (scope : ScopeId) :
    List Stmt → Option Value → Tracing (Option Value)
  | [], before => pure before
  | s :: rest, _ =>
    (stmt call (site.child 0) scope s).bind fun
      | some (.returned v) => pure (some (.returned v))
      | r => stmts call (site.child 1) scope rest r

end

def assignAll (scope : ScopeId) : List (String × Value) → Tracing Unit
  | [] => pure ()
  | (name, value) :: rest => (assign scope name value).bind fun _ => assignAll scope rest

def enter (call : Call) (closure : Closure) (arguments : List Value) : Tracing Value :=
  if closure.params.length = arguments.length then
    (enclose closure.scope).bind fun scope =>
      leaving scope ((assignAll scope (closure.params.zip arguments)).bind fun _ =>
        (stmts call (closure.origin.child 0) scope closure.body none).bind fun r =>
          pure ((r.map Value.unwrap).getD .null))
  else silent (.fail (.arity arguments.length closure.params.length))

def apply (limit : Nat) : Call :=
  match limit with
  | 0 => fun _ _ => silent .exhausted
  | limit + 1 => fun closure arguments => enter (apply limit) closure arguments

def program (limit : Nat) (program : Program) (number : Nat) (scope : ScopeId) :
    Tracing (Option Value) :=
  (stmts (apply limit) ⟨number, []⟩ scope program none).bind fun r => pure (r.map Value.unwrap)

/-! ### Without the record -/

theorem plain_silent {α : Type} (m : Eval α) : (silent m).plain = m := rfl

theorem plain_bind {α β : Type} (first : Tracing α) (next : α → Tracing β) :
    (first.bind next).plain = first.plain.bind fun r => (next r).plain := by
  funext scopes
  simp only [plain, bind, Eval.bind]
  rcases first scopes with ⟨_ | _ | _, events⟩ <;> rfl

theorem plain_leaving (scope : ScopeId) (body : Tracing Value) :
    (leaving scope body).plain = body.plain := by
  funext scopes
  simp only [plain, leaving]
  rcases body scopes with ⟨_ | _ | _, events⟩ <;> rfl

theorem plain_operand (value : Tracing Value) (next : Value → Tracing Value) :
    (value.operand next).plain = value.plain.operand fun v => (next v).plain := by
  rw [operand, plain_bind, Eval.operand]
  congr 1
  funext v
  cases v <;> rfl

mutual

theorem plain_expr (call : Call) (scope : ScopeId) : (e : Expr) → (site : Site) →
    (expr call site scope e).plain = e.eval call.plain site scope
  | .ident name, site => rfl
  | .int value, site => rfl
  | .bool value, site => rfl
  | .prefixOp o e, site => by
    simp only [expr, Expr.eval, plain_operand, plain_expr call scope e, plain_silent]
  | .infixOp o e f, site => by
    simp only [expr, Expr.eval, plain_operand, plain_expr call scope e, plain_expr call scope f,
      plain_silent]
  | .cond c a none, site => by
    simp only [expr, Expr.eval, plain_operand, plain_expr call scope c]
    congr 1
    funext v
    split
    · rw [plain_bind, plain_stmts call scope a]
      rfl
    · rfl
  | .cond c a (some b), site => by
    simp only [expr, Expr.eval, plain_operand, plain_expr call scope c]
    congr 1
    funext v
    split
    · rw [plain_bind, plain_stmts call scope a]
      rfl
    · rw [plain_bind, plain_stmts call scope b]
      rfl
  | .fn ps body, site => rfl
  | .call f es, site => by
    simp only [expr, Expr.eval, plain_operand, plain_expr call scope f]
    congr 1
    funext v
    cases v with
    | function closure => exact plain_exprs call scope es _ _
    | _ => rfl

theorem plain_exprs (call : Call) (scope : ScopeId) : (es : List Expr) → (site : Site) →
    (next : List Value → Tracing Value) → (exprs call site scope es next).plain =
      Expr.evalAll call.plain site scope es fun vs => (next vs).plain
  | [], site, next => rfl
  | e :: es, site, next => by
    simp only [exprs, Expr.evalAll, plain_operand, plain_expr call scope e,
      plain_exprs call scope es]

theorem plain_stmt (call : Call) (scope : ScopeId) : (s : Stmt) → (site : Site) →
    (stmt call site scope s).plain = s.eval call.plain site scope
  | .bind name e, site => by
    simp only [stmt, Stmt.eval, plain_bind, plain_expr call scope e]
    congr 1
    funext v
    cases v <;> rfl
  | .ret none, site => rfl
  | .ret (some e), site => by
    simp only [stmt, Stmt.eval, plain_bind, plain_expr call scope e]
    rfl
  | .expr e, site => by
    simp only [stmt, Stmt.eval, plain_bind, plain_expr call scope e]
    rfl
  | .block body, site => by
    simp only [stmt, Stmt.eval, plain_stmts call scope body]

theorem plain_stmts (call : Call) (scope : ScopeId) : (ss : List Stmt) → (site : Site) →
    (before : Option Value) → (stmts call site scope ss before).plain =
      Stmt.evalAll call.plain site scope ss before
  | [], site, before => rfl
  | s :: rest, site, before => by
    simp only [stmts, Stmt.evalAll, plain_bind, plain_stmt call scope s]
    congr 1
    funext r
    rcases r with _ | v
    · exact plain_stmts call scope rest _ _
    · cases v with
      | returned v => rfl
      | _ => exact plain_stmts call scope rest _ _

end

theorem plain_assignAll (scope : ScopeId) (bindings : List (String × Value)) :
    (assignAll scope bindings).plain = Closure.assignAll scope bindings := by
  induction bindings with
  | nil => rfl
  | cons binding rest ih =>
    rw [assignAll, plain_bind, Closure.assignAll, ih]
    rfl

theorem plain_enter (call : Call) (closure : Closure) (arguments : List Value) :
    (enter call closure arguments).plain = closure.enter call.plain arguments := by
  unfold enter Closure.enter
  split
  · simp only [plain_bind, plain_leaving, plain_assignAll, plain_stmts]
    rfl
  · rfl

theorem plain_apply (limit : Nat) : (apply limit).plain = Closure.apply limit := by
  induction limit with
  | zero => rfl
  | succ limit ih =>
    funext closure arguments
    change (enter (apply limit) closure arguments).plain = closure.enter _ arguments
    rw [plain_enter, ih]

theorem plain_program (limit : Nat) (p : Program) (number : Nat) (scope : ScopeId) :
    (program limit p number scope).plain = p.eval limit number scope := by
  simp only [program, Program.eval, plain_bind, plain_stmts, plain_apply]
  rfl

end Tracing

end Monkey
