import Monkey.Proofs.Correspondence
import Monkey.Session
import Monkey.Syntax.Names

/-!
# The same code in two places

Two evaluations of the same code go on in step if that holds of what code can do
at all: look a name up, bind a name, make a function, and call one. Which scopes
and which places of the tree correspond is a parameter, as is the kind of the
names that may occur. The induction over the tree is here, once.
-/

set_option autoImplicit false

namespace Monkey

def Correspondence.Calls {World : Type} (R : Correspondence World) (call call' : Call) : Prop :=
  ∀ (w : World) (f g : Closure) (vs us : List Value), R.closure w f g → R.Lists w vs us →
    (call f vs).Corresponds R w R.Values (call' g us)

/-- Pairs of a scope and a place in which names of this kind can be used alike. -/
structure Positions {World : Type} (R : Correspondence World) where
  here : World → ScopeId → Site → ScopeId → Site → Prop
  kind : String → Prop
  mono : ∀ {w u i a j b}, R.later w u → here w i a j b → here u i a j b
  child : ∀ {w i a j b} (turn : Nat), here w i a j b → here w i (a.child turn) j (b.child turn)
  lookup : ∀ {w i a j b} {name : String}, here w i a j b → kind name →
    (Eval.lookup i name).Corresponds R w R.Values (Eval.lookup j name)
  assign : ∀ {w i a j b} {name : String} {v u : Value}, here w i a j b → kind name →
    R.Values w v u →
    (Eval.assign i name v).Corresponds R w (fun _ _ _ => True) (Eval.assign j name u)
  literal : ∀ {w i a j b} {params : List String} {body : Block}, here w i a j b →
    (Expr.fn params body).Names kind → R.closure w ⟨params, body, i, a⟩ ⟨params, body, j, b⟩

section

variable {World : Type} {R : Correspondence World} {call call' : Call}

namespace Positions

mutual

theorem eval (P : Positions R) (hcall : R.Calls call call') : (e : Expr) → (w : World) →
    (site site' : Site) → (scope scope' : ScopeId) → P.here w scope site scope' site' →
    e.Names P.kind →
    (e.eval call site scope).Corresponds R w R.Values (e.eval call' site' scope')
  | .ident name, w, site, site', scope, scope', hhere, he => P.lookup hhere he
  | .int value, w, site, site', scope, scope', hhere, he => .pure fun _ _ => .int value
  | .bool value, w, site, site', scope, scope', hhere, he => .pure fun _ _ => .bool value
  | .prefixOp o e, w, site, site', scope, scope', hhere, he => by
    apply (P.eval hcall e w _ _ scope scope' (P.child 0 hhere) he).operand
    intro v u later hlater hv
    exact .applyPrefix o hv
  | .infixOp o e f, w, site, site', scope, scope', hhere, he => by
    apply (P.eval hcall e w _ _ scope scope' (P.child 0 hhere) he.1).operand
    intro v u later hlater hv
    have hhere := P.mono hlater hhere
    apply (P.eval hcall f later _ _ scope scope' (P.child 1 hhere) he.2).operand
    intro x y last hlast hx
    exact .applyInfix o (hv.mono hlast) hx
  | .cond c a none, w, site, site', scope, scope', hhere, he => by
    apply (P.eval hcall c w _ _ scope scope' (P.child 0 hhere) he.1).operand
    intro v u later hlater hv
    have hhere := P.mono hlater hhere
    rw [hv.truthy]
    split
    · exact (P.evalAll hcall a later _ _ scope scope' none none (P.child 1 hhere) he.2
        trivial).block
    · exact .pure fun _ _ => .null
  | .cond c a (some b), w, site, site', scope, scope', hhere, he => by
    apply (P.eval hcall c w _ _ scope scope' (P.child 0 hhere) he.1).operand
    intro v u later hlater hv
    have hhere := P.mono hlater hhere
    rw [hv.truthy]
    split
    · exact (P.evalAll hcall a later _ _ scope scope' none none (P.child 1 hhere) he.2.1
        trivial).block
    · exact (P.evalAll hcall b later _ _ scope scope' none none (P.child 2 hhere) he.2.2
        trivial).block
  | .fn ps body, w, site, site', scope, scope', hhere, he =>
    .pure fun _ hlater => .function _ _ (P.literal (P.mono hlater hhere) he)
  | .call f es, w, site, site', scope, scope', hhere, he => by
    apply (P.eval hcall f w _ _ scope scope' (P.child 0 hhere) he.1).operand
    intro v u later hlater hv
    cases hv with
    | function f g hf =>
      apply P.evalEach hcall es later _ _ scope scope' _ _ (P.child 1 (P.mono hlater hhere)) he.2
      intro vs us last hlast hvs
      exact hcall last f g vs us (R.mono hlast hf) hvs
    | _ => exact .fail _

theorem evalEach (P : Positions R) (hcall : R.Calls call call') : (es : List Expr) →
    (w : World) → (site site' : Site) → (scope scope' : ScopeId) →
    (next next' : List Value → Eval Value) → P.here w scope site scope' site' →
    Expr.AllNames P.kind es →
    (∀ vs us later, R.later w later → R.Lists later vs us →
      (next vs).Corresponds R later R.Values (next' us)) →
    (Expr.evalAll call site scope es next).Corresponds R w R.Values
      (Expr.evalAll call' site' scope' es next')
  | [], w, site, site', scope, scope', next, next', hhere, he, hnext =>
    hnext [] [] w (R.refl w) .nil
  | e :: es, w, site, site', scope, scope', next, next', hhere, he, hnext => by
    apply (P.eval hcall e w _ _ scope scope' (P.child 0 hhere) he.1).operand
    intro v u later hlater hv
    apply P.evalEach hcall es later _ _ scope scope' _ _ (P.child 1 (P.mono hlater hhere)) he.2
    intro vs us last hlast hvs
    exact hnext _ _ last (R.trans hlater hlast) (.cons v u vs us (hv.mono hlast) hvs)

theorem evalStmt (P : Positions R) (hcall : R.Calls call call') : (s : Stmt) → (w : World) →
    (site site' : Site) → (scope scope' : ScopeId) → P.here w scope site scope' site' →
    s.Names P.kind →
    (s.eval call site scope).Corresponds R w R.Results (s.eval call' site' scope')
  | .bind name e, w, site, site', scope, scope', hhere, hs => by
    apply (P.eval hcall e w _ _ scope scope' (P.child 0 hhere) hs.2).bound
    intro v u later hlater hv
    exact P.assign (P.mono hlater hhere) hs.1 hv
  | .ret none, w, site, site', scope, scope', hhere, hs => .pure fun _ _ => .returned _ _ .null
  | .ret (some e), w, site, site', scope, scope', hhere, hs => by
    apply (P.eval hcall e w _ _ scope scope' (P.child 0 hhere) hs).bind
    intro v u later hlater hv
    exact .pure fun last hlast => .returned v u (hv.mono hlast)
  | .expr e, w, site, site', scope, scope', hhere, hs => by
    apply (P.eval hcall e w _ _ scope scope' (P.child 0 hhere) hs).bind
    intro v u later hlater hv
    exact .pure fun last hlast => hv.mono hlast
  | .block body, w, site, site', scope, scope', hhere, hs =>
    P.evalAll hcall body w _ _ scope scope' none none (P.child 0 hhere) hs trivial

theorem evalAll (P : Positions R) (hcall : R.Calls call call') : (ss : List Stmt) →
    (w : World) → (site site' : Site) → (scope scope' : ScopeId) →
    (before before' : Option Value) → P.here w scope site scope' site' →
    Stmt.AllNames P.kind ss → R.Results w before before' →
    (Stmt.evalAll call site scope ss before).Corresponds R w R.Results
      (Stmt.evalAll call' site' scope' ss before')
  | [], w, site, site', scope, scope', before, before', hhere, hss, hbefore =>
    .pure fun _ hlater => hbefore.mono hlater
  | s :: ss, w, site, site', scope, scope', before, before', hhere, hss, hbefore => by
    apply (P.evalStmt hcall s w _ _ scope scope' (P.child 0 hhere) hss.1).statement
    intro r q later hlater _ hr
    exact P.evalAll hcall ss later _ _ scope scope' r q (P.child 1 (P.mono hlater hhere)) hss.2 hr

end

end Positions

/-! ### Calls -/

theorem Correspondence.enter {w : World} {f g : Closure} {vs us : List Value}
    {within : World → ScopeId → ScopeId → Prop} (hparams : g.params.length = f.params.length)
    (hvs : R.Lists w vs us)
    (hopened : f.params.length = vs.length →
      (Eval.opened f.scope (f.params.zip vs)).Corresponds R w within
        (Eval.opened g.scope (g.params.zip us)))
    (hbody : ∀ u i j, R.later w u → within u i j →
      (Stmt.evalAll call (f.origin.child 0) i f.body none).Corresponds R u R.Results
        (Stmt.evalAll call' (g.origin.child 0) j g.body none)) :
    (f.enter call vs).Corresponds R w R.Values (g.enter call' us) := by
  unfold Closure.enter
  rw [hparams, ← hvs.length_eq, Eval.enclose_assignAll, Eval.enclose_assignAll]
  split
  · next hlength =>
    apply (hopened hlength).bind
    intro i j u hu hij
    apply (hbody u i j hu hij).bind
    intro r q later hlater hr
    exact .pure fun last hlast =>
      Correspondence.Values.mono (CorrespondingOptions.unwrap hr).getD hlast
  · exact .fail _

theorem Correspondence.calls_apply
    (h : ∀ call call', R.Calls call call' → R.Calls (Closure.enter call) (Closure.enter call'))
    (limit : Nat) : R.Calls (Closure.apply limit) (Closure.apply limit) := by
  -- on the number of calls that may be active
  induction limit with
  | zero => exact fun _ _ _ _ _ _ _ => .exhausted
  | succ limit ih => exact h _ _ ih

/-! ### Programs -/

theorem Program.corresponds {w : World} {p q : Program} {limit number number' : Nat}
    {scope scope' : ScopeId}
    (h : (Stmt.evalAll (Closure.apply limit) ⟨number, []⟩ scope p none).Corresponds R w R.Results
      (Stmt.evalAll (Closure.apply limit) ⟨number', []⟩ scope' q none)) :
    (p.eval limit number scope).Corresponds R w R.Results (q.eval limit number' scope') := by
  apply h.bind
  intro x y u hu hxy
  exact .pure fun v hv => (CorrespondingOptions.unwrap hxy).imp fun _ _ => R.mono hv

end

inductive Reply.Corresponds (closure : Closure → Closure → Prop) : Reply → Reply → Prop where
  | failed (e : EvalError) : Corresponds closure (.failed e) (.failed e)
  | finished (v u : Option Value) (h : CorrespondingOptions closure v u) :
      Corresponds closure (.finished v) (.finished u)

/-- Sessions with corresponding scopes get corresponding replies to programs that are in
step, or none of them gets one. -/
theorem Session.evaluate_corresponds {World : Type} {R : Correspondence World} {w : World}
    {limit : Nat} {p q : Program} {scope scope' : ScopeId} (first second : Session)
    (hscopes : R.scopes w first.scopes second.scopes)
    (h : (p.eval limit first.programs scope).Corresponds R w R.Results
      (q.eval limit second.programs scope')) :
    (first.evaluate limit p scope = none ∧ second.evaluate limit q scope' = none) ∨
    ∃ u reply reply' later later', first.evaluate limit p scope = some (reply, later) ∧
      second.evaluate limit q scope' = some (reply', later') ∧ R.later w u ∧
      R.scopes u later.scopes later'.scopes ∧ reply.Corresponds (R.closure u) reply' := by
  have hrun := h w _ _ (R.refl w) hscopes
  unfold Session.evaluate
  generalize p.eval limit first.programs scope first.scopes = outcome at hrun
  generalize q.eval limit second.programs scope' second.scopes = outcome' at hrun
  cases hrun with
  | done u x y s t hlater hscopes hvalue =>
    exact .inr ⟨u, _, _, _, _, rfl, rfl, hlater, hscopes, .finished x y hvalue⟩
  | failed u e s t hlater hscopes =>
    exact .inr ⟨u, _, _, _, _, rfl, rfl, hlater, hscopes, .failed e⟩
  | exhausted => exact .inl ⟨rfl, rfl⟩

end Monkey
