import Monkey.Eval.Raising
import Monkey.Proofs.History
import Monkey.Proofs.Regions

/-!
# Wrapping and raising agree

A `return` that wraps its value and hands it up, and one that raises it, come to
the same as long as no wrapped value is wrapped again: a value on its way out in
one evaluation is a raised value in the other, and everything else is equal, the
scopes included. That takes unnested returns, in the program and in every
function that it can come to.
-/

set_option autoImplicit false

namespace Monkey

def Value.Unnested : Value → Prop
  | .function f => Stmt.allUnnested f.body = true
  | .returned _ => False
  | .error _ => False
  | .int _ => True
  | .bool _ => True
  | .null => True

def Value.Within (region : ScopeId → Prop) (v : Value) : Prop :=
  v.Unnested ∧ ∀ f, v = .function f → region f.scope

def WithinResult (region : ScopeId → Prop) (r : Option Value) : Prop :=
  ∀ v, r = some v → v.Within region

/-- Nothing in the region leads out of it, and scopes still to be created belong to it. -/
structure Scopes.Closed (region : ScopeId → Prop) (s : Scopes) : Prop where
  new : ∀ i : ScopeId, s.size ≤ i → region i
  outer : ∀ (i o : ScopeId) (scope : Scope), region i → s[i]? = some scope →
    scope.outer = some o → region o
  bound : ∀ (i : ScopeId) (scope : Scope) (name : String) (v : Value), region i →
    s[i]? = some scope → scope.get name = some v → v.Within region

section

variable {region : ScopeId → Prop}

theorem Value.within_function {f : Closure} (hbody : Stmt.allUnnested f.body = true)
    (hscope : region f.scope) : (Value.function f).Within region := by
  refine ⟨hbody, fun g hg => ?_⟩
  cases hg
  exact hscope

theorem Value.Atom.within {v : Value} (h : v.Atom) : v.Within region := by
  cases v with
  | function f => exact h.elim
  | returned w => exact h.elim
  | error e => exact h.elim
  | int n => exact ⟨trivial, fun _ h => nomatch h⟩
  | bool b => exact ⟨trivial, fun _ h => nomatch h⟩
  | null => exact ⟨trivial, fun _ h => nomatch h⟩

theorem Value.within_int (n : Int64) : (Value.int n).Within region := Value.Atom.within trivial

theorem Value.within_bool (b : Bool) : (Value.bool b).Within region := Value.Atom.within trivial

theorem Value.within_null : Value.null.Within region := Value.Atom.within trivial

theorem WithinResult.none : WithinResult region none := fun _ h => nomatch h

theorem WithinResult.some {v : Value} (h : v.Within region) : WithinResult region (some v) := by
  intro w hw
  cases hw
  exact h

theorem WithinResult.unwrap {r : Option Value} (h : WithinResult region r) :
    r.map Value.unwrap = r := by
  cases r with
  | none => rfl
  | some v =>
    cases v with
    | returned w => exact (h _ rfl).1.elim
    | _ => rfl

theorem WithinResult.getD {r : Option Value} (h : WithinResult region r) :
    (r.getD .null).Within region := by
  cases r with
  | none => exact Value.within_null
  | some v => exact h v rfl

namespace Scopes.Closed

variable {s : Scopes}

theorem get {i : ScopeId} {name : String} {v : Value} (h : s.Closed region) (hi : region i)
    (hv : s.get i name = some v) : v.Within region := by
  induction i using Nat.strongRecOn with
  | ind i ih =>
    unfold Scopes.get at hv
    split at hv
    · cases hv
    · next scope hscope =>
      cases hget : scope.get name with
      | some w =>
        simp only [hget, Option.some.injEq] at hv
        subst hv
        exact h.bound i scope name w hi hscope hget
      | none =>
        cases houter : scope.outer with
        | none => simp [hget, houter] at hv
        | some o =>
          by_cases holder : o < i
          · simp only [hget, houter, if_pos holder] at hv
            exact ih o holder (h.outer i o scope hi hscope houter) hv
          · simp [hget, houter, holder] at hv

theorem set {i : ScopeId} {name : String} {v : Value} (h : s.Closed region)
    (hv : v.Within region) : (s.set i name v).Closed region := by
  constructor
  · intro j hj
    rw [size_set] at hj
    exact h.new j hj
  · intro j o scope hj hscope ho
    obtain ⟨old, hold, rfl | rfl⟩ := set_cases hscope
    · exact h.outer j o scope hj hold ho
    · exact h.outer j o old hj hold ho
  · intro j scope key w hj hscope hw
    obtain ⟨old, hold, rfl | rfl⟩ := set_cases hscope
    · exact h.bound j scope key w hj hold hw
    · by_cases hkey : key = name
      · subst hkey
        rw [Scope.get_set_self, Option.some.injEq] at hw
        exact hw ▸ hv
      · rw [Scope.get_set_of_ne _ _ _ _ hkey] at hw
        exact h.bound j old key w hj hold hw

theorem create {outer : ScopeId} (h : s.Closed region) (houter : region outer) :
    (s.create (some outer)).Closed region := by
  constructor
  · intro j hj
    rw [size_create] at hj
    exact h.new j (Nat.le_of_succ_le hj)
  · intro j o scope hj hscope ho
    rcases create_cases hscope with hold | ⟨rfl, rfl⟩
    · exact h.outer j o scope hj hold ho
    · cases ho
      exact houter
  · intro j scope key w hj hscope hw
    rcases create_cases hscope with hold | ⟨rfl, rfl⟩
    · exact h.bound j scope key w hj hold hw
    · cases hw

end Scopes.Closed

end

/-- From closed scopes, the computation leaves closed scopes, and a result is good. -/
structure Eval.Confined {α : Type} (region : ScopeId → Prop) (good : α → Prop) (m : Eval α) :
    Prop where
  done : ∀ (s after : Scopes) (x : α), s.Closed region → m s = .done x after →
    good x ∧ after.Closed region
  failed : ∀ (s after : Scopes) (e : EvalError), s.Closed region → m s = .failed e after →
    after.Closed region

/-- The outcome of the wrapping evaluation, where `wrap` shows a value on its way out. -/
def Raised.wrapped {α : Type} (wrap : Value → α) : Raised α → Outcome α
  | done result scopes => .done result scopes
  | raised value scopes => .done (wrap value) scopes
  | failed error scopes => .failed error scopes
  | exhausted => .exhausted

/-- The scopes are closed, a result is good, and a raised value lies within the
region; there is none if nothing can return. -/
def Raised.Good {α : Type} (region : ScopeId → Prop) (free : Prop) (good : α → Prop) :
    Raised α → Prop
  | done result scopes => good result ∧ scopes.Closed region
  | raised value scopes => ¬free ∧ value.Within region ∧ scopes.Closed region
  | failed _ scopes => scopes.Closed region
  | exhausted => True

def Agrees {α : Type} (region : ScopeId → Prop) (free : Prop) (wrap : Value → α)
    (good : α → Prop) (m : Eval α) (r : Raising α) : Prop :=
  ∀ s : Scopes, s.Closed region → m s = (r s).wrapped wrap ∧ (r s).Good region free good

def returnedResult (v : Value) : Option Value := some (.returned v)

section

variable {region : ScopeId → Prop} {free : Prop} {α β : Type} {wrap : Value → α}
  {wrap' : Value → β} {good : α → Prop} {fine : β → Prop}

theorem Eval.Confined.assign (scope : ScopeId) (name : String) {v : Value}
    (hv : v.Within region) : (Eval.assign scope name v).Confined region fun _ => True := by
  constructor
  · intro s after x hs hx
    cases hx
    exact ⟨trivial, hs.set hv⟩
  · exact fun _ _ _ _ h => nomatch h

theorem Eval.Confined.enclose {outer : ScopeId} (h : region outer) :
    (Eval.enclose outer).Confined region region := by
  constructor
  · intro s after x hs hx
    cases hx
    exact ⟨hs.new s.size (Nat.le_refl _), hs.create h⟩
  · exact fun _ _ _ _ h => nomatch h

theorem Eval.Confined.bind {first : Eval α} {next : α → Eval β}
    (hfirst : first.Confined region good) (hnext : ∀ x, good x → (next x).Confined region fine) :
    (first.bind next).Confined region fine := by
  constructor
  · intro s last y hs hy
    unfold Eval.bind at hy
    split at hy
    · next x after hx =>
      obtain ⟨hgood, hafter⟩ := hfirst.done s after x hs hx
      exact (hnext x hgood).done after last y hafter hy
    · cases hy
    · cases hy
  · intro s last e hs he
    unfold Eval.bind at he
    split at he
    · next x after hx =>
      obtain ⟨hgood, hafter⟩ := hfirst.done s after x hs hx
      exact (hnext x hgood).failed after last e hafter he
    · next error after hfailed =>
      cases he
      exact hfirst.failed s last e hs hfailed
    · cases he

theorem Eval.Confined.pure {x : α} (h : good x) : (Eval.pure x).Confined region good := by
  constructor
  · intro s after y hs hy
    cases hy
    exact ⟨h, hs⟩
  · exact fun _ _ _ _ h => nomatch h

theorem Eval.Confined.lookup {scope : ScopeId} (name : String) (hscope : region scope) :
    (Eval.lookup scope name).Confined region (Value.Within region) := by
  constructor
  · intro s after x hs hx
    unfold Eval.lookup at hx
    split at hx
    · next v hv =>
      cases hx
      exact ⟨hs.get hscope hv, hs⟩
    · cases hx
  · intro s after e hs he
    unfold Eval.lookup at he
    split at he <;> cases he
    exact hs

theorem Eval.Confined.fail (error : EvalError) :
    (Eval.fail error : Eval α).Confined region good := by
  constructor
  · exact fun _ _ _ _ h => nomatch h
  · intro s after e hs he
    cases he
    exact hs

theorem Eval.Confined.ofExcept {x : Except EvalError α} (h : ∀ r, x = .ok r → good r) :
    (Eval.ofExcept x).Confined region good := by
  cases x with
  | error error => exact .fail error
  | ok r => exact .pure (h r rfl)

namespace Agrees

theorem pure {x : α} (h : good x) :
    Agrees region free wrap good (Eval.pure x) (Raising.pure x) :=
  fun _ hs => ⟨rfl, h, hs⟩

theorem raise {v : Value} (hv : v.Within region) (hfree : ¬free) :
    Agrees region free wrap good (Eval.pure (wrap v)) (Raising.raise v) :=
  fun _ hs => ⟨rfl, hfree, hv, hs⟩

theorem ofEval {m : Eval α} (h : m.Confined region good) :
    Agrees region free wrap good m (Raising.ofEval m) := by
  intro s hs
  unfold Raising.ofEval
  cases hm : m s with
  | done x after => exact ⟨rfl, h.done s after x hs hm⟩
  | failed e after => exact ⟨rfl, h.failed s after e hs hm⟩
  | exhausted => exact ⟨rfl, trivial⟩

theorem after {m : Eval α} {next : α → Eval β} {next' : α → Raising β}
    (h : m.Confined region good)
    (hnext : ∀ x, good x → Agrees region free wrap' fine (next x) (next' x)) :
    Agrees region free wrap' fine (m.bind next) ((Raising.ofEval m).bind next') := by
  intro s hs
  unfold Eval.bind Raising.bind Raising.ofEval
  cases hm : m s with
  | done x after =>
    obtain ⟨hx, hafter⟩ := h.done s after x hs hm
    exact hnext x hx after hafter
  | failed e after => exact ⟨rfl, h.failed s after e hs hm⟩
  | exhausted => exact ⟨rfl, trivial⟩

theorem bind {first : Eval α} {first' : Raising α} {next : α → Eval β}
    {next' : α → Raising β} (hfirst : Agrees region free wrap good first first')
    (hnext : ∀ x, good x → Agrees region free wrap' fine (next x) (next' x))
    (hout : ∀ v, next (wrap v) = Eval.pure (wrap' v)) :
    Agrees region free wrap' fine (first.bind next) (first'.bind next') := by
  intro s hs
  obtain ⟨heq, hgood⟩ := hfirst s hs
  unfold Eval.bind Raising.bind
  rw [heq]
  cases hrun : first' s with
  | done x after =>
    rw [hrun] at hgood
    exact hnext x hgood.1 after hgood.2
  | raised v after =>
    rw [hrun] at hgood
    simp only [Raised.wrapped, hout]
    exact ⟨rfl, hgood⟩
  | failed e after =>
    rw [hrun] at hgood
    exact ⟨rfl, hgood⟩
  | exhausted => exact ⟨rfl, trivial⟩

theorem anyway {m : Eval α} {r : Raising α} (h : Agrees region True wrap good m r) :
    Agrees region free wrap good m r := by
  intro s hs
  obtain ⟨heq, hgood⟩ := h s hs
  refine ⟨heq, ?_⟩
  cases hrun : r s with
  | raised v after =>
    rw [hrun] at hgood
    exact absurd trivial hgood.1
  | _ => rw [hrun] at hgood; exact hgood

theorem operand {value : Eval Value} {value' : Raising Value} {next : Value → Eval Value}
    {next' : Value → Raising Value}
    (hvalue : Agrees region free .returned (Value.Within region) value value')
    (hnext : ∀ v, v.Within region →
      Agrees region free .returned (Value.Within region) (next v) (next' v)) :
    Agrees region free .returned (Value.Within region) (value.operand next)
      (value'.bind next') := by
  apply hvalue.bind
  · intro v hv
    cases v with
    | returned w => exact hv.1.elim
    | _ => exact hnext _ hv
  · exact fun _ => rfl

theorem returning {value : Eval Value} {value' : Raising Value}
    (hvalue : Agrees region True .returned (Value.Within region) value value') (hfree : ¬free) :
    Agrees region free returnedResult (WithinResult region)
      (value.bind fun v => Eval.pure (some (.returned v))) (value'.bind Raising.raise) := by
  intro s hs
  obtain ⟨heq, hgood⟩ := hvalue s hs
  unfold Eval.bind Raising.bind
  rw [heq]
  cases hrun : value' s with
  | done v after =>
    rw [hrun] at hgood
    exact ⟨rfl, hfree, hgood⟩
  | raised v after =>
    rw [hrun] at hgood
    exact absurd trivial hgood.1
  | failed e after =>
    rw [hrun] at hgood
    exact ⟨rfl, hgood⟩
  | exhausted => exact ⟨rfl, trivial⟩

theorem block {body : Eval (Option Value)} {body' : Raising (Option Value)}
    (h : Agrees region free returnedResult (WithinResult region) body body') :
    Agrees region free .returned (Value.Within region)
      (body.bind fun r => Eval.pure (r.getD .null))
      (body'.bind fun r => Raising.pure (r.getD .null)) :=
  h.bind (fun _ hr => pure hr.getD) fun _ => rfl

theorem caught {body : Eval (Option Value)} {body' : Raising (Option Value)}
    (finish : Option Value → α)
    (h : Agrees region free returnedResult (WithinResult region) body body')
    (hfinish : ∀ r, WithinResult region r → good (finish r)) :
    Agrees region True wrap good (body.bind fun r => Eval.pure (finish (r.map Value.unwrap)))
      ((body'.caught some).bind fun r => Raising.pure (finish r)) := by
  intro s hs
  obtain ⟨heq, hgood⟩ := h s hs
  unfold Eval.bind Raising.bind Raising.caught
  rw [heq]
  cases hrun : body' s with
  | done r after =>
    rw [hrun] at hgood
    simp only [Raised.wrapped, hgood.1.unwrap]
    exact ⟨rfl, hfinish r hgood.1, hgood.2⟩
  | raised v after =>
    rw [hrun] at hgood
    exact ⟨rfl, hfinish _ (.some hgood.2.1), hgood.2.2⟩
  | failed e after =>
    rw [hrun] at hgood
    exact ⟨rfl, hgood⟩
  | exhausted => exact ⟨rfl, trivial⟩

end Agrees

end

def Call.Agrees (region : ScopeId → Prop) (call : Call) (call' : Raising.Call) : Prop :=
  ∀ (f : Closure) (vs : List Value), (Value.function f).Within region →
    (∀ v ∈ vs, v.Within region) →
    Monkey.Agrees region True .returned (Value.Within region) (call f vs) (call' f vs)

section

variable {region : ScopeId → Prop} {call : Call} {call' : Raising.Call}

mutual

/-- `free` says that nothing in the expression can return. -/
theorem agrees_expr (hcall : call.Agrees region call') (free : Prop) : (e : Expr) →
    (site : Site) → (scope : ScopeId) → region scope → e.unnested = true →
    (free → e.returnFree = true) →
    Agrees region free .returned (Value.Within region) (e.eval call site scope)
      (Raising.expr call' site scope e)
  | .ident name, site, scope, hscope, he, hfree => .ofEval (.lookup name hscope)
  | .int value, site, scope, hscope, he, hfree => .pure (Value.within_int value)
  | .bool value, site, scope, hscope, he, hfree => .pure (Value.within_bool value)
  | .prefixOp o e, site, scope, hscope, he, hfree => by
    apply (agrees_expr hcall free e _ scope hscope he hfree).operand
    intro v hv
    exact .ofEval (.ofExcept fun w hw => (applyPrefix_atom hw).within)
  | .infixOp o e f, site, scope, hscope, he, hfree => by
    simp only [Expr.unnested, Bool.and_eq_true] at he
    simp only [Expr.returnFree, Bool.and_eq_true] at hfree
    apply (agrees_expr hcall free e _ scope hscope he.1 fun h => (hfree h).1).operand
    intro v hv
    apply (agrees_expr hcall free f _ scope hscope he.2 fun h => (hfree h).2).operand
    intro w hw
    exact .ofEval (.ofExcept fun u hu => (applyInfix_atom hu).within)
  | .cond c a none, site, scope, hscope, he, hfree => by
    simp only [Expr.unnested, Bool.and_eq_true] at he
    simp only [Expr.returnFree, Bool.and_eq_true] at hfree
    apply (agrees_expr hcall free c _ scope hscope he.1 fun h => (hfree h).1).operand
    intro v hv
    split
    · exact (agrees_stmts hcall free a _ scope none hscope he.2 (fun h => (hfree h).2) .none).block
    · exact .pure Value.within_null
  | .cond c a (some b), site, scope, hscope, he, hfree => by
    simp only [Expr.unnested, Bool.and_eq_true] at he
    simp only [Expr.returnFree, Bool.and_eq_true] at hfree
    apply (agrees_expr hcall free c _ scope hscope he.1.1 fun h => (hfree h).1.1).operand
    intro v hv
    split
    · exact (agrees_stmts hcall free a _ scope none hscope he.1.2 (fun h => (hfree h).1.2)
        .none).block
    · exact (agrees_stmts hcall free b _ scope none hscope he.2 (fun h => (hfree h).2) .none).block
  | .fn ps body, site, scope, hscope, he, hfree => .pure (Value.within_function he hscope)
  | .call f es, site, scope, hscope, he, hfree => by
    simp only [Expr.unnested, Bool.and_eq_true] at he
    simp only [Expr.returnFree, Bool.and_eq_true] at hfree
    apply (agrees_expr hcall free f _ scope hscope he.1 fun h => (hfree h).1).operand
    intro v hv
    cases v with
    | function closure =>
      apply agrees_exprs hcall free es _ scope _ _ hscope he.2 fun h => (hfree h).2
      intro vs hvs
      exact (hcall closure vs hv hvs).anyway
    | _ => exact .ofEval (.fail _)

theorem agrees_exprs (hcall : call.Agrees region call') (free : Prop) : (es : List Expr) →
    (site : Site) → (scope : ScopeId) → (next : List Value → Eval Value) →
    (next' : List Value → Raising Value) → region scope → Expr.allUnnested es = true →
    (free → Expr.allReturnFree es = true) →
    (∀ vs, (∀ v ∈ vs, v.Within region) →
      Agrees region free .returned (Value.Within region) (next vs) (next' vs)) →
    Agrees region free .returned (Value.Within region) (Expr.evalAll call site scope es next)
      ((Raising.exprs call' site scope es).bind next')
  | [], site, scope, next, next', hscope, hes, hfree, hnext => hnext [] fun _ h => nomatch h
  | e :: es, site, scope, next, next', hscope, hes, hfree, hnext => by
    simp only [Expr.allUnnested, Bool.and_eq_true] at hes
    simp only [Expr.allReturnFree, Bool.and_eq_true] at hfree
    simp only [Raising.exprs, Raising.bind_assoc, Raising.pure_bind]
    apply (agrees_expr hcall free e _ scope hscope hes.1 fun h => (hfree h).1).operand
    intro v hv
    apply agrees_exprs hcall free es _ scope _ _ hscope hes.2 fun h => (hfree h).2
    intro vs hvs
    exact hnext _ (List.forall_mem_cons.2 ⟨hv, hvs⟩)

theorem agrees_stmt (hcall : call.Agrees region call') (free : Prop) : (s : Stmt) →
    (site : Site) → (scope : ScopeId) → region scope → s.unnested = true →
    (free → s.returnFree = true) →
    Agrees region free returnedResult (WithinResult region) (s.eval call site scope)
      (Raising.stmt call' site scope s)
  | .bind name e, site, scope, hscope, hs, hfree => by
    apply (agrees_expr hcall free e _ scope hscope hs hfree).bind
    · intro v hv
      cases v with
      | returned w => exact hv.1.elim
      | _ => exact .after (.assign scope name hv) fun _ _ => .pure .none
    · exact fun _ => rfl
  | .ret none, site, scope, hscope, hs, hfree =>
    .raise Value.within_null fun h => nomatch hfree h
  | .ret (some e), site, scope, hscope, hs, hfree => by
    simp only [Stmt.unnested, Bool.and_eq_true] at hs
    have hoperand := agrees_expr hcall True e (site.child 0) scope hscope hs.2 fun _ => hs.1
    exact hoperand.returning fun h => nomatch hfree h
  | .expr e, site, scope, hscope, hs, hfree =>
    (agrees_expr hcall free e _ scope hscope hs hfree).bind (fun _ hv => .pure (.some hv))
      fun _ => rfl
  | .block body, site, scope, hscope, hs, hfree =>
    agrees_stmts hcall free body _ scope none hscope hs hfree .none

theorem agrees_stmts (hcall : call.Agrees region call') (free : Prop) : (ss : List Stmt) →
    (site : Site) → (scope : ScopeId) → (before : Option Value) → region scope →
    Stmt.allUnnested ss = true → (free → Stmt.allReturnFree ss = true) →
    WithinResult region before →
    Agrees region free returnedResult (WithinResult region)
      (Stmt.evalAll call site scope ss before) (Raising.stmts call' site scope ss before)
  | [], site, scope, before, hscope, hss, hfree, hbefore => .pure hbefore
  | s :: ss, site, scope, before, hscope, hss, hfree, hbefore => by
    simp only [Stmt.allUnnested, Bool.and_eq_true] at hss
    simp only [Stmt.allReturnFree, Bool.and_eq_true] at hfree
    apply (agrees_stmt hcall free s _ scope hscope hss.1 fun h => (hfree h).1).bind
    · intro r hr
      have hrest := agrees_stmts hcall free ss (site.child 1) scope r hscope hss.2
        (fun h => (hfree h).2) hr
      split
      · next w => exact (hr _ rfl).1.elim
      · exact hrest
    · exact fun _ => rfl

end

theorem confined_assignAll (scope : ScopeId) {bindings : List (String × Value)}
    (h : ∀ binding ∈ bindings, binding.2.Within region) :
    (Closure.assignAll scope bindings).Confined region fun _ => True := by
  induction bindings with
  | nil => exact .pure trivial
  | cons binding rest ih =>
    apply (Eval.Confined.assign scope binding.1 (h binding (by simp))).bind
    exact fun _ _ => ih fun b hb => h b (by simp [hb])

theorem agrees_enter (hcall : call.Agrees region call') {f : Closure} {vs : List Value}
    (hf : (Value.function f).Within region) (hvs : ∀ v ∈ vs, v.Within region) :
    Agrees region True .returned (Value.Within region) (f.enter call vs)
      (Raising.enter call' f vs) := by
  unfold Closure.enter Raising.enter
  split
  · apply Agrees.after (.enclose (hf.2 f rfl))
    intro scope hscope
    have hbindings : ∀ binding ∈ f.params.zip vs, binding.2.Within region :=
      fun binding hb => hvs _ (List.of_mem_zip hb).2
    apply Agrees.after (confined_assignAll scope hbindings)
    intro _ _
    have hbody := agrees_stmts hcall False f.body (f.origin.child 0) scope none hscope hf.1
      False.elim .none
    exact hbody.caught (fun r => r.getD .null) fun _ hr => hr.getD
  · exact .ofEval (.fail _)

theorem agrees_apply (region : ScopeId → Prop) (limit : Nat) :
    Call.Agrees region (Closure.apply limit) (Raising.apply limit) := by
  induction limit with
  | zero => exact fun _ _ _ _ _ _ => ⟨rfl, trivial⟩
  | succ limit ih => exact fun _ _ hf hvs => agrees_enter ih hf hvs

theorem agrees_program (limit number : Nat) {p : Program} {scope : ScopeId}
    (hscope : region scope) (hp : Stmt.allUnnested p = true) :
    Agrees region True returnedResult (WithinResult region) (p.eval limit number scope)
      (Raising.program limit p number scope) := by
  have hbody := agrees_stmts (agrees_apply region limit) False p ⟨number, []⟩ scope none hscope hp
    False.elim .none
  have hcaught : Agrees region True returnedResult (WithinResult region)
      (p.eval limit number scope) ((Raising.program limit p number scope).bind Raising.pure) :=
    hbody.caught id fun _ hr => hr
  rw [Raising.bind_pure] at hcaught
  exact hcaught

end

theorem closed_from {scopes : Scopes} {start : ScopeId}
    (hbound : ∀ i scope name v, scopes.LeadsTo start i → scopes[i]? = some scope →
      scope.get name = some v → v.Unnested) : scopes.Closed (scopes.From start) where
  new := fun _ hi => .inr hi
  outer := fun _ _ _ hi hscope ho => hi.outward hscope ho
  bound := fun i scope name v hi hscope hv =>
    ⟨hbound i scope name v (hi.leadsTo hscope) hscope hv,
      fun _ hf => hi.captured hscope hv (hf ▸ rfl)⟩

/-- A program with unnested returns, in a scope from which it comes to no other
functions than such, has the same outcome in both evaluations and leaves the same
scopes. It raises nothing that is not caught. -/
theorem raising_eq_wrapping (limit number : Nat) (p : Program) (start : ScopeId) (scopes : Scopes)
    (hp : Stmt.allUnnested p = true)
    (hbound : ∀ i scope name v, scopes.LeadsTo start i → scopes[i]? = some scope →
      scope.get name = some v → v.Unnested) :
    Raising.program limit p number start scopes =
      Raising.ofEval (p.eval limit number start) scopes := by
  obtain ⟨heq, hgood⟩ := agrees_program limit number (.inl .start) hp scopes
    (closed_from hbound)
  unfold Raising.ofEval
  rw [heq]
  cases hrun : Raising.program limit p number start scopes with
  | raised v after =>
    rw [hrun] at hgood
    exact absurd trivial hgood.1
  | _ => rfl

/-- A function is called with an argument that is a `return`, in a sum that is to
be bound: neither the call nor the sum nor the binding takes place. -/
theorem returning_argument_raised :
    let f : Closure := ⟨["x"], [.ret (some (.ident "x"))], 0, ⟨0, [0]⟩⟩
    let scopes : Scopes := #[⟨none, [("f", .function f), ("n", .int 3)]⟩]
    let p : Program := [.bind "y" (.infixOp .plus (.int 1)
      (.call (.ident "f") [.cond (.bool true) [.ret (some (.int 2))] none]))]
    Stmt.allUnnested p = true ∧
      (∀ i scope name v, scopes.LeadsTo 0 i → scopes[i]? = some scope →
        scope.get name = some v → v.Unnested) ∧
      Raising.program 1 p 1 0 scopes = Raising.ofEval (p.eval 1 1 0) scopes := by
  intro f scopes p
  have hp : Stmt.allUnnested p = true := by decide
  have hbound : ∀ i scope name v, scopes.LeadsTo 0 i → scopes[i]? = some scope →
      scope.get name = some v → v.Unnested := by
    intro i scope name v _ hscope hv
    have hi : i = 0 := by
      have hsize : i < scopes.size := (Array.getElem?_eq_some_iff.1 hscope).1
      exact Nat.lt_one_iff.1 hsize
    subst hi
    cases hscope
    change List.lookup name [("f", .function f), ("n", .int 3)] = some v at hv
    simp only [List.lookup_cons, List.lookup_nil] at hv
    split at hv
    · cases hv
      exact rfl
    · split at hv
      · cases hv
        trivial
      · cases hv
  exact ⟨hp, hbound, raising_eq_wrapping 1 1 p 0 scopes hp hbound⟩

end Monkey
