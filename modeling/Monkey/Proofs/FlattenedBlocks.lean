import Mathlib
import Monkey.Proofs.AlignedScopes
import Monkey.Syntax.Flattening

/-!
# Blocks without effect

A block that stands as a statement opens no scope, and a `return` inside of it
ends what is around it as well. So its statements may as well stand in its place,
and the same goes for the bodies of functions, which are flattened with the code
that makes them. Functions that were there before stay as they are.

Two evaluations are compared, of the tree and of the flattened one, and the
statements of a block go together with what comes after the block: what is left
to do after a statement is a parameter, as far as the induction is concerned.
-/

set_option autoImplicit false

namespace Monkey

theorem Eval.statement_pure (m : Eval (Option Value)) : m.statement pure = m := by
  funext s
  unfold statement bind
  cases m s with
  | done r s =>
    rcases r with _ | v
    · rfl
    · cases v <;> rfl
  | failed e s => rfl
  | exhausted => rfl

theorem Eval.statement_assoc (m : Eval (Option Value))
    (next last : Option Value → Eval (Option Value)) :
    (m.statement next).statement last = m.statement fun r => (next r).statement last := by
  funext s
  unfold statement bind
  cases m s with
  | done r s =>
    rcases r with _ | v
    · rfl
    · cases v <;> rfl
  | failed e s => rfl
  | exhausted => rfl

theorem Eval.pure_statement {r : Option Value} (h : Unreturned r)
    (next : Option Value → Eval (Option Value)) : (Eval.pure r).statement next = next r := by
  rcases r with _ | v
  · rfl
  · cases v with
    | returned v => exact absurd rfl (h v)
    | _ => rfl

/-! ### Functions and their flattened selves -/

/-- The function is the same but for its place, or its body is flattened. -/
structure Closure.Flattened (f g : Closure) : Prop where
  params : g.params = f.params
  scope : g.scope = f.scope
  body : g.body = f.body ∨ (Stmt.AllBlocks filled f.body ∧ g.body = Stmt.flattenAll f.body)

theorem Closure.flattened_self (f : Closure) : f.Flattened f := ⟨rfl, rfl, .inl rfl⟩

def Alignment.flattened : Alignment := ⟨fun _ => True, anyName, Closure.Flattened⟩

def Positions.flattened : Positions Alignment.flattened.correspondence where
  here := fun _ i _ j _ => i = j
  kind := anyName
  mono := fun _ h => h
  child := fun _ h => h
  lookup := by
    rintro _ i _ _ _ name rfl hname
    exact Alignment.lookup trivial hname
  assign := by
    rintro _ i _ _ _ name v u rfl _ hv
    exact Alignment.assign i name hv
  literal := by
    rintro _ i _ _ _ params body rfl _
    exact ⟨rfl, rfl, .inl rfl⟩

abbrev Correspondence.flattened : Correspondence Unit := Alignment.flattened.correspondence

/-! ### Statements and what comes after them -/

section

open Correspondence (flattened)

variable {call call' : Call} {scope : ScopeId} {next : Option Value → Eval (Option Value)}
  {rest : List Stmt}

/-- What is left to do in the flattened evaluation is to evaluate the statements. -/
def GoesOn (call' : Call) (scope : ScopeId) (next : Option Value → Eval (Option Value))
    (rest : List Stmt) : Prop :=
  ∀ (site : Site) (r q : Option Value), Unreturned r → flattened.Results () r q →
    (next r).Corresponds flattened () flattened.Results (Stmt.evalAll call' site scope rest q)

theorem GoesOn.nothing : GoesOn call' scope .pure [] :=
  fun _ _ _ _ hrq => .pure fun _ _ => hrq

theorem GoesOn.after (h : GoesOn call' scope next rest) {m : Eval (Option Value)} {s : Stmt}
    {site : Site} (hs : m.Corresponds flattened () flattened.Results
      (s.eval call' (site.child 0) scope)) (before : Option Value) :
    (m.statement next).Corresponds flattened () flattened.Results
      (Stmt.evalAll call' site scope (s :: rest) before) := by
  apply hs.statement
  intro r q _ _ hr hrq
  exact h (site.child 1) r q hr hrq

theorem Eval.Corresponds.alone {m : Eval (Option Value)} {site : Site} {ss : List Stmt}
    {before : Option Value}
    (h : (m.statement Eval.pure).Corresponds flattened () flattened.Results
      (Stmt.evalAll call' site scope (ss ++ []) before)) :
    m.Corresponds flattened () flattened.Results (Stmt.evalAll call' site scope ss before) := by
  rwa [Eval.statement_pure, List.append_nil] at h

mutual

theorem Expr.flattened_eval (hcall : flattened.Calls call call') : (e : Expr) →
    (site site' : Site) → (scope : ScopeId) → e.Blocks filled →
    (e.eval call site scope).Corresponds flattened () flattened.Values
      (e.flatten.eval call' site' scope)
  | .ident name, site, site', scope, he => Alignment.lookup trivial trivial
  | .int value, site, site', scope, he => .pure fun _ _ => .int value
  | .bool value, site, site', scope, he => .pure fun _ _ => .bool value
  | .prefixOp o e, site, site', scope, he => by
    apply (Expr.flattened_eval hcall e _ _ scope he).operand
    intro v u _ _ hv
    exact .applyPrefix o hv
  | .infixOp o a b, site, site', scope, he => by
    apply (Expr.flattened_eval hcall a _ _ scope he.1).operand
    intro v u _ _ hv
    apply (Expr.flattened_eval hcall b _ _ scope he.2).operand
    intro x y _ _ hx
    exact .applyInfix o hv hx
  | .cond c a none, site, site', scope, he => by
    apply (Expr.flattened_eval hcall c _ _ scope he.1).operand
    intro v u _ _ hv
    rw [hv.truthy]
    split
    · exact (Stmt.flattened_evalAll hcall a _ _ scope none none .pure [] he.2 nofun trivial
        .nothing).alone.block
    · exact .pure fun _ _ => .null
  | .cond c a (some b), site, site', scope, he => by
    apply (Expr.flattened_eval hcall c _ _ scope he.1).operand
    intro v u _ _ hv
    rw [hv.truthy]
    split
    · exact (Stmt.flattened_evalAll hcall a _ _ scope none none .pure [] he.2.1 nofun trivial
        .nothing).alone.block
    · exact (Stmt.flattened_evalAll hcall b _ _ scope none none .pure [] he.2.2 nofun trivial
        .nothing).alone.block
  | .fn ps body, site, site', scope, he =>
    .pure fun _ _ => .function _ _ ⟨rfl, rfl, .inr ⟨he, rfl⟩⟩
  | .call f es, site, site', scope, he => by
    apply (Expr.flattened_eval hcall f _ _ scope he.1).operand
    intro v u _ _ hv
    cases hv with
    | function f g hf =>
      apply Expr.flattened_evalAll hcall es _ _ scope _ _ he.2
      intro vs us hvs
      exact hcall () f g vs us hf hvs
    | _ => exact .fail _

theorem Expr.flattened_evalAll (hcall : flattened.Calls call call') : (es : List Expr) →
    (site site' : Site) → (scope : ScopeId) → (next next' : List Value → Eval Value) →
    Expr.AllBlocks filled es →
    (∀ vs us, flattened.Lists () vs us →
      (next vs).Corresponds flattened () flattened.Values (next' us)) →
    (Expr.evalAll call site scope es next).Corresponds flattened () flattened.Values
      (Expr.evalAll call' site' scope (Expr.flattenAll es) next')
  | [], site, site', scope, next, next', hes, hnext => hnext [] [] .nil
  | e :: es, site, site', scope, next, next', hes, hnext => by
    apply (Expr.flattened_eval hcall e _ _ scope hes.1).operand
    intro v u _ _ hv
    apply Expr.flattened_evalAll hcall es _ _ scope _ _ hes.2
    intro vs us hvs
    exact hnext _ _ (.cons v u vs us hv hvs)

theorem Stmt.flattened_eval (hcall : flattened.Calls call call') : (s : Stmt) →
    (site site' : Site) → (scope : ScopeId) → (before before' : Option Value) →
    (next : Option Value → Eval (Option Value)) → (rest : List Stmt) → s.Blocks filled →
    Unreturned before → flattened.Results () before before' → GoesOn call' scope next rest →
    ((s.eval call site scope).statement next).Corresponds flattened () flattened.Results
      (Stmt.evalAll call' site' scope (s.flatten ++ rest) before')
  | .bind name e, site, site', scope, before, before', next, rest, hs, hbefore, hsame, hnext => by
    apply hnext.after
    apply (Expr.flattened_eval hcall e _ _ scope hs).bound
    intro v u _ _ hv
    exact Alignment.assign scope name hv
  | .ret none, site, site', scope, before, before', next, rest, hs, hbefore, hsame, hnext =>
    hnext.after (.pure fun _ _ => .returned _ _ .null) before'
  | .ret (some e), site, site', scope, before, before', next, rest, hs, hbefore, hsame, hnext => by
    apply hnext.after
    apply (Expr.flattened_eval hcall e _ _ scope hs).bind
    intro v u _ _ hv
    exact .pure fun _ _ => .returned v u hv
  | .expr e, site, site', scope, before, before', next, rest, hs, hbefore, hsame, hnext => by
    apply hnext.after
    apply (Expr.flattened_eval hcall e _ _ scope hs).bind
    intro v u _ _ hv
    exact .pure fun _ _ => hv
  | .block body, site, site', scope, before, before', next, rest, hs, hbefore, hsame, hnext => by
    -- The block has statements, so what was before does not matter to its value.
    have hbody := Stmt.flattened_evalAll hcall body (site.child 0) site' scope before before' next
      rest hs.2 hbefore hsame hnext
    have hvalue : (Stmt.block body).eval call site scope =
        Stmt.evalAll call (site.child 0) scope body before :=
      Stmt.evalAll_before hs.1 _ none before
    rw [hvalue]
    exact hbody

/-- The statements and what comes after them are taken together, so that those of a block
inside go on in those after the block. -/
theorem Stmt.flattened_evalAll (hcall : flattened.Calls call call') : (ss : List Stmt) →
    (site site' : Site) → (scope : ScopeId) → (before before' : Option Value) →
    (next : Option Value → Eval (Option Value)) → (rest : List Stmt) →
    Stmt.AllBlocks filled ss → Unreturned before → flattened.Results () before before' →
    GoesOn call' scope next rest →
    ((Stmt.evalAll call site scope ss before).statement next).Corresponds flattened ()
      flattened.Results (Stmt.evalAll call' site' scope (Stmt.flattenAll ss ++ rest) before')
  | [], site, site', scope, before, before', next, rest, hss, hbefore, hsame, hnext => by
    rw [Stmt.evalAll, Eval.pure_statement hbefore]
    exact hnext site' before before' hbefore hsame
  | s :: ss, site, site', scope, before, before', next, rest, hss, hbefore, hsame, hnext => by
    have hsplit : (Stmt.evalAll call site scope (s :: ss) before).statement next =
        (s.eval call (site.child 0) scope).statement fun r =>
          (Stmt.evalAll call (site.child 1) scope ss r).statement next :=
      Eval.statement_assoc _ _ _
    rw [hsplit, Stmt.flattenAll, List.append_assoc]
    refine Stmt.flattened_eval hcall s _ _ scope before before' _ _ hss.1 hbefore hsame ?_
    intro last r q hr hrq
    exact Stmt.flattened_evalAll hcall ss _ _ scope r q next rest hss.2 hr hrq hnext

end

theorem Stmt.flattened_body (hcall : flattened.Calls call call') {body : Block}
    (hbody : Stmt.AllBlocks filled body) (site site' : Site) (scope : ScopeId) :
    (Stmt.evalAll call site scope body none).Corresponds flattened () flattened.Results
      (Stmt.evalAll call' site' scope (Stmt.flattenAll body) none) :=
  (Stmt.flattened_evalAll hcall body site site' scope none none .pure [] hbody nofun trivial
    .nothing).alone

theorem Closure.flattened_apply (limit : Nat) :
    flattened.Calls (Closure.apply limit) (Closure.apply limit) := by
  apply Correspondence.calls_apply
  intro call call' hcall w f g vs us hfg hvs
  apply Correspondence.enter (congrArg List.length hfg.params) hvs
  · intro _
    rw [hfg.params, hfg.scope]
    exact Alignment.opened trivial hvs f.params
  · rintro _ _ i _ ⟨rfl, _⟩
    rcases hfg.body with hbody | ⟨hfilled, hbody⟩
    · rw [hbody]
      exact Positions.flattened.evalAll hcall f.body () _ _ i i none none rfl
        (Stmt.allNames_any f.body) trivial
    · rw [hbody]
      exact Stmt.flattened_body hcall hfilled _ _ i

end

theorem Scopes.aligned_flattened (s : Scopes) : s.Aligned .flattened s := by
  refine ⟨rfl, fun _ _ => trivial, fun i a _ ha => ⟨a, ha, rfl, fun _ _ => trivial, ?_⟩⟩
  exact fun name _ => CorrespondingOptions.self fun _ f _ _ => f.flattened_self

/-- In a tree in which all blocks that stand as statements have statements, these may as well
stand in place of the blocks, in the branches of conditionals and the bodies of functions, too.
No such block is left then. The program comes to the same value, to no value, to the same error,
or to no end, as before. All scopes are in the same scopes in the end, and bind the same names to
the same values. All this is up to flattening the bodies of functions. Where the tree is a block
itself, a `return` hands up the same value. -/
theorem flattening_unobserved {p : Program} (hp : Stmt.AllBlocks filled p) (limit : Nat)
    (scope : ScopeId) :
    Stmt.AllBlocks noBlock (Stmt.flattenAll p) ∧
    (∀ session : Session,
      (session.evaluate limit p scope = none ∧
        session.evaluate limit (Stmt.flattenAll p) scope = none) ∨
      ∃ reply reply' later later', session.evaluate limit p scope = some (reply, later) ∧
        session.evaluate limit (Stmt.flattenAll p) scope = some (reply', later') ∧
        reply.Corresponds Closure.Flattened reply' ∧
        later.scopes.Aligned .flattened later'.scopes ∧
        ∀ i name, CorrespondingOptions Closure.Flattened (later.get i name)
          (later'.get i name)) ∧
    ∀ (site site' : Site) (s : Scopes),
      (Stmt.evalAll (Closure.apply limit) site scope p none s).Corresponds .flattened ()
        (Correspondence.Results .flattened)
        (Stmt.evalAll (Closure.apply limit) site' scope (Stmt.flattenAll p) none s) := by
  have hbody := fun site site' =>
    Stmt.flattened_body (Closure.flattened_apply limit) hp site site' scope
  refine ⟨Stmt.flattenAll_noBlock p, fun session => ?_, fun site site' s => ?_⟩
  · have hprogram := Program.corresponds (hbody ⟨session.programs, []⟩ ⟨session.programs, []⟩)
    rcases Session.evaluate_corresponds session session session.scopes.aligned_flattened hprogram
      with hnone | ⟨_, reply, reply', later, later', hreply, hreply', _, haligned, halike⟩
    · exact .inl hnone
    · exact .inr ⟨reply, reply', later, later', hreply, hreply', halike, haligned,
        fun i name => haligned.get trivial trivial⟩
  · exact hbody site site' () s s trivial s.aligned_flattened

/-- A block without statements has no value, whatever came before it. -/
example : Stmt.flattenAll [.expr (.int 5), .block []] = [.expr (.int 5)] ∧
    (Session.empty.root.2.evaluate 0 [.expr (.int 5), .block []] 0).map Prod.fst =
      some (.finished none) := ⟨rfl, rfl⟩

/-- A function returns out of a block in a block, past what is left of its body, and is called in
a block in a branch. -/
theorem return_out_of_blocks :
    let body : Block :=
      [.block [.bind "y" (.ident "x"), .block [.ret (some (.ident "y"))]], .expr (.int 0)]
    let p : Program := [.bind "f" (.fn ["x"] body),
      .expr (.cond (.bool true) [.block [.expr (.call (.ident "f") [.int 4])]] none)]
    let flattened : Block := [.bind "y" (.ident "x"), .ret (some (.ident "y")), .expr (.int 0)]
    Stmt.AllBlocks filled p ∧
      ∃ later f, Session.empty.root.2.evaluate 1 [.bind "f" (.fn ["x"] flattened),
          .expr (.cond (.bool true) [.expr (.call (.ident "f") [.int 4])] none)] 0 =
        some (.finished (some (.int 4)), later) ∧
        later.get 0 "f" = some (.function f) ∧
        Closure.Flattened ⟨["x"], body, 0, ⟨0, [0, 0]⟩⟩ f := by
  intro body p flattened
  have hp : Stmt.AllBlocks filled p := by
    simp [Stmt.AllBlocks, Stmt.Blocks, Expr.Blocks, Expr.AllBlocks, filled, p, body]
  have hvalue : (Session.empty.root.2.evaluate 1 p 0).map
      (fun answer => (answer.1, answer.2.get 0 "f")) =
      some (.finished (some (.int 4)),
        some (.function ⟨["x"], body, 0, ⟨0, [0, 0]⟩⟩)) := by
    simp only [p, body]
    cbv
  refine ⟨hp, ?_⟩
  rcases (flattening_unobserved hp 1 0).2.1 Session.empty.root.2 with
    ⟨hnone, _⟩ | ⟨reply, reply', later, later', hreply, hreply', halike, _, hget⟩
  · rw [hnone] at hvalue
    cases hvalue
  · rw [hreply] at hvalue
    obtain ⟨rfl, hf⟩ := Prod.mk.inj (Option.some.inj hvalue)
    have hsame := hget 0 "f"
    rw [hf] at hsame
    obtain ⟨_, hf', hfunction⟩ := hsame.exists_some
    cases hfunction with
    | function _ f hflattened =>
      cases halike with
      | finished _ v hv =>
        obtain ⟨_, rfl, hfour⟩ := hv.exists_some
        cases hfour
        exact ⟨later', f, hreply', hf', hflattened⟩

end Monkey
