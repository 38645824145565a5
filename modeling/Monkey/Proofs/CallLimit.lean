import Monkey.Session

/-!
# How many calls may be active

A limit on active calls only decides whether there is an outcome, not which. An
evaluation that comes to an end under one limit comes to the same end under every
larger one.
-/

set_option autoImplicit false

namespace Monkey

def Eval.Settled {α : Type} (m n : Eval α) : Prop :=
  ∀ s, m s = .exhausted ∨ n s = m s

def Call.Settled (call call' : Call) : Prop :=
  ∀ closure arguments, (call closure arguments).Settled (call' closure arguments)

section

variable {α β : Type} {call call' : Call}

namespace Eval.Settled

theorem refl (m : Eval α) : m.Settled m := fun _ => .inr rfl

theorem bind {m n : Eval α} {next next' : α → Eval β} (h : m.Settled n)
    (hnext : ∀ x, (next x).Settled (next' x)) : (m.bind next).Settled (n.bind next') := by
  intro s
  unfold Eval.bind
  rcases h s with hcut | hsame
  · rw [hcut]
    exact .inl rfl
  · rw [hsame]
    cases m s with
    | done x after => exact hnext x after
    | failed e after => exact .inr rfl
    | exhausted => exact .inl rfl

theorem operand {m n : Eval Value} {next next' : Value → Eval Value} (h : m.Settled n)
    (hnext : ∀ v, (next v).Settled (next' v)) : (m.operand next).Settled (n.operand next') := by
  apply h.bind
  intro v
  cases v with
  | returned v => exact refl _
  | _ => exact hnext _

end Eval.Settled

mutual

theorem Expr.settled_eval (hcall : call.Settled call') (scope : ScopeId) : (e : Expr) →
    (site : Site) → (e.eval call site scope).Settled (e.eval call' site scope)
  | .ident _, _ => .refl _
  | .int _, _ => .refl _
  | .bool _, _ => .refl _
  | .prefixOp _ e, _ => (Expr.settled_eval hcall scope e _).operand fun _ => .refl _
  | .infixOp _ e f, _ =>
    (Expr.settled_eval hcall scope e _).operand fun _ =>
      (Expr.settled_eval hcall scope f _).operand fun _ => .refl _
  | .cond c a none, _ => by
    apply (Expr.settled_eval hcall scope c _).operand
    intro v
    split
    · exact (Stmt.settled_evalAll hcall scope a _ _).bind fun _ => .refl _
    · exact .refl _
  | .cond c a (some b), _ => by
    apply (Expr.settled_eval hcall scope c _).operand
    intro v
    split
    · exact (Stmt.settled_evalAll hcall scope a _ _).bind fun _ => .refl _
    · exact (Stmt.settled_evalAll hcall scope b _ _).bind fun _ => .refl _
  | .fn _ _, _ => .refl _
  | .call f es, _ => by
    apply (Expr.settled_eval hcall scope f _).operand
    intro v
    cases v with
    | function closure => exact Expr.settled_evalAll hcall scope es _ fun vs => hcall closure vs
    | _ => exact .refl _

theorem Expr.settled_evalAll (hcall : call.Settled call') (scope : ScopeId) : (es : List Expr) →
    (site : Site) → {next next' : List Value → Eval Value} →
    (∀ vs, (next vs).Settled (next' vs)) →
    (Expr.evalAll call site scope es next).Settled (Expr.evalAll call' site scope es next')
  | [], _, _, _, hnext => hnext []
  | e :: es, _, _, _, hnext =>
    (Expr.settled_eval hcall scope e _).operand fun v =>
      Expr.settled_evalAll hcall scope es _ fun vs => hnext (v :: vs)

theorem Stmt.settled_eval (hcall : call.Settled call') (scope : ScopeId) : (s : Stmt) →
    (site : Site) → (s.eval call site scope).Settled (s.eval call' site scope)
  | .bind _ e, _ => by
    apply (Expr.settled_eval hcall scope e _).bind
    exact fun _ => .refl _
  | .ret none, _ => .refl _
  | .ret (some e), _ => (Expr.settled_eval hcall scope e _).bind fun _ => .refl _
  | .expr e, _ => (Expr.settled_eval hcall scope e _).bind fun _ => .refl _
  | .block body, _ => Stmt.settled_evalAll hcall scope body _ _

theorem Stmt.settled_evalAll (hcall : call.Settled call') (scope : ScopeId) : (ss : List Stmt) →
    (site : Site) → (before : Option Value) →
    (Stmt.evalAll call site scope ss before).Settled (Stmt.evalAll call' site scope ss before)
  | [], _, _ => .refl _
  | s :: ss, _, _ => by
    apply (Stmt.settled_eval hcall scope s _).bind
    intro r
    split
    · exact .refl _
    · exact Stmt.settled_evalAll hcall scope ss _ _

end

theorem Closure.settled_enter (hcall : call.Settled call') (f : Closure) (vs : List Value) :
    (f.enter call vs).Settled (f.enter call' vs) := by
  unfold enter
  split
  · apply (Eval.Settled.refl _).bind
    intro scope
    apply (Eval.Settled.refl _).bind
    intro _
    exact (Stmt.settled_evalAll hcall scope f.body _ _).bind fun _ => .refl _
  · exact .refl _

theorem Closure.settled_apply {limit more : Nat} (h : limit ≤ more) :
    Call.Settled (apply limit) (apply more) := by
  induction limit generalizing more with
  | zero => exact fun _ _ _ => .inl rfl
  | succ limit ih =>
    cases more with
    | zero => exact absurd h (Nat.not_succ_le_zero limit)
    | succ more => exact settled_enter (ih (Nat.le_of_succ_le_succ h))

theorem Expr.eval_of_le {limit more : Nat} (h : limit ≤ more) {e : Expr} {site : Site}
    {scope : ScopeId} {s : Scopes} (hend : e.eval (Closure.apply limit) site scope s ≠ .exhausted) :
    e.eval (Closure.apply more) site scope s = e.eval (Closure.apply limit) site scope s :=
  (Expr.settled_eval (Closure.settled_apply h) scope e site s).resolve_left hend

theorem Session.evaluate_of_le {limit more : Nat} (h : limit ≤ more) {session later : Session}
    {p : Program} {scope : ScopeId} {reply : Reply}
    (hlater : session.evaluate limit p scope = some (reply, later)) :
    session.evaluate more p scope = some (reply, later) := by
  have hprogram : (p.eval limit session.programs scope).Settled
      (p.eval more session.programs scope) :=
    (Stmt.settled_evalAll (Closure.settled_apply h) scope p _ none).bind fun _ => .refl _
  unfold evaluate at hlater ⊢
  rcases hprogram session.scopes with hcut | hsame
  · rw [hcut] at hlater
    cases hlater
  · rw [hsame]
    exact hlater

end

end Monkey
