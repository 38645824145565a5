import Monkey.Eval.Tracing

/-!
# What an evaluation keeps

On its own, an evaluation can do few things: look a name up, bind a name, make a function,
come to a `return`, begin a call and end it. What all of these keep is kept by every
evaluation, whether it has a value, fails or is cut off. What is known at a moment is a
parameter (a world), and so is what may be said of code. The inductions over the tree and
over the number of active calls are here, once.
-/

set_option autoImplicit false

namespace Monkey

/-! ### What operators yield -/

def Value.Atom : Value → Prop
  | .int _ => True
  | .bool _ => True
  | .null => True
  | _ => False

/-- The error tells of a name of the kind, or of types of values. -/
def EvalError.Names (kind : String → Prop) : EvalError → Prop
  | .unbound name => kind name
  | .unknownPrefix _ operand => ∃ v : Value, operand = v.typeName
  | .unknownInfix left _ right => ∃ v w : Value, left = v.typeName ∧ right = w.typeName
  | .typeMismatch left _ right => ∃ v w : Value, left = v.typeName ∧ right = w.typeName
  | .notAFunction type => ∃ v : Value, type = v.typeName
  | .arity _ _ => True
  | .divisionByZero => True

theorem applyPrefix_atom {o : Operator} {v w : Value} (h : applyPrefix o v = .ok w) : w.Atom := by
  unfold applyPrefix at h
  split at h <;> cases h <;> exact trivial

theorem applyInfix_atom {o : Operator} {u v w : Value} (h : applyInfix o u v = .ok w) :
    w.Atom := by
  unfold applyInfix at h
  (repeat' split at h) <;> cases h <;> exact trivial

section

variable {kind : String → Prop}

theorem applyPrefix_names {o : Operator} {v : Value} {e : EvalError}
    (h : applyPrefix o v = .error e) : e.Names kind := by
  unfold applyPrefix at h
  split at h <;> cases h
  exact ⟨v, rfl⟩

theorem EvalError.names_operands (v : Value) (o : Operator) (w : Value) :
    (EvalError.operands v.typeName o w.typeName).Names kind := by
  unfold operands
  split <;> exact ⟨v, w, rfl, rfl⟩

theorem applyInfix_names {o : Operator} {v w : Value} {e : EvalError}
    (h : applyInfix o v w = .error e) : e.Names kind := by
  unfold applyInfix at h
  split at h
  case h_4 =>
    split at h <;> cases h
    exact trivial
  case h_11 =>
    cases h
    exact EvalError.names_operands v o w
  all_goals cases h

end

/-! ### Conditions on code -/

/-- A condition on code that passes to the parts of the code, the operands of `return` and
the bodies of functions apart. -/
structure Code where
  expr : Site → Expr → Prop
  exprs : Site → List Expr → Prop
  stmt : Site → Stmt → Prop
  stmts : Site → List Stmt → Prop
  prefixOp : ∀ {site : Site} {o : Operator} {e : Expr}, expr site (.prefixOp o e) →
    expr (site.child 0) e
  infixOp : ∀ {site : Site} {o : Operator} {e f : Expr}, expr site (.infixOp o e f) →
    expr (site.child 0) e ∧ expr (site.child 1) f
  cond : ∀ {site : Site} {c : Expr} {a : Block}, expr site (.cond c a none) →
    expr (site.child 0) c ∧ stmts (site.child 1) a
  condElse : ∀ {site : Site} {c : Expr} {a b : Block}, expr site (.cond c a (some b)) →
    expr (site.child 0) c ∧ stmts (site.child 1) a ∧ stmts (site.child 2) b
  call : ∀ {site : Site} {f : Expr} {es : List Expr}, expr site (.call f es) →
    expr (site.child 0) f ∧ exprs (site.child 1) es
  cons : ∀ {site : Site} {e : Expr} {es : List Expr}, exprs site (e :: es) →
    expr (site.child 0) e ∧ exprs (site.child 1) es
  bind : ∀ {site : Site} {name : String} {e : Expr}, stmt site (.bind name e) →
    expr (site.child 0) e
  only : ∀ {site : Site} {e : Expr}, stmt site (.expr e) → expr (site.child 0) e
  block : ∀ {site : Site} {body : Block}, stmt site (.block body) → stmts (site.child 0) body
  seq : ∀ {site : Site} {s : Stmt} {ss : List Stmt}, stmts site (s :: ss) →
    stmt (site.child 0) s ∧ stmts (site.child 1) ss

/-! ### Invariants -/

/-- What is known of scopes, values and errors in each world, and which events lead from
world to world. -/
structure Invariant (World : Type) where
  /-- These are the events of computations that have come to an end. -/
  kept : World → List Event → World → Prop
  /-- These are the events of a computation that is cut off. -/
  cut : World → List Event → World → Prop
  fits : World → Scopes → Prop
  /-- No value is on its way out. -/
  ready : World → Prop
  plain : World → Value → Prop
  /-- This value is on its way out, perhaps out of the operand of a `return`. -/
  out : Bool → World → Value → Prop
  bad : EvalError → Prop
  kept_nil : ∀ w, kept w [] w
  kept_append : ∀ {w u v : World} {es fs : List Event}, kept w es u → kept u fs v →
    kept w (es ++ fs) v
  cut_nil : ∀ w, cut w [] w
  cut_append : ∀ {w u v : World} {es fs : List Event}, kept w es u → cut u fs v →
    cut w (es ++ fs) v
  plain_kept : ∀ {w u : World} {es : List Event} {v : Value}, kept w es u → plain w v → plain u v
  atom : ∀ {w : World} {v : Value}, v.Atom → plain w v
  out_of_plain : ∀ {inside : Bool} {w : World} {v : Value}, ready w → plain w (.returned v) →
    out inside w v
  typed : ∀ {e : EvalError}, e.Names (fun _ => False) → bad e

namespace Invariant

variable {World : Type} (I : Invariant World)

def value (inside : Bool) (w : World) : Value → Prop
  | .returned v => I.out inside w v
  | v => I.ready w ∧ I.plain w v

def result (inside : Bool) (w : World) : Option Value → Prop
  | none => I.ready w
  | some v => I.value inside w v

/-- What is left of a value after one wrapper, if it has any, has been taken off. -/
def unwrapped (w : World) (v : Value) : Prop := I.out false w v ∨ I.ready w ∧ I.plain w v

def answer (w : World) : Option Value → Prop
  | none => I.ready w
  | some v => I.unwrapped w v

inductive Kept {α : Type} (w : World) (good : World → α → Prop) : Run α → Prop where
  | done (u : World) (x : α) (s : Scopes) (es : List Event) (hkept : I.kept w es u)
      (hfits : I.fits u s) (hgood : good u x) : Kept w good ⟨.done x s, es⟩
  | failed (u : World) (e : EvalError) (s : Scopes) (es : List Event) (hkept : I.kept w es u)
      (hfits : I.fits u s) (hready : I.ready u) (hbad : I.bad e) : Kept w good ⟨.failed e s, es⟩
  | exhausted (u : World) (es : List Event) (hcut : I.cut w es u) (hready : I.ready u) :
      Kept w good ⟨.exhausted, es⟩

def Keeps {α : Type} (w : World) (good : World → α → Prop) (m : Tracing α) : Prop :=
  ∀ s, I.fits w s → I.Kept w good (m s)

def Binds (w : World) (scope : ScopeId) : Prop :=
  ∀ (name : String) (v : Value) (s : Scopes), I.plain w v → I.fits w s →
    ∃ u, I.kept w [.bound scope name v] u ∧ I.fits u (s.set scope name v) ∧ I.ready u

/-- What is known within a call leads back to what is known where the call is made. -/
structure Encloses (w : World) (scope outer : ScopeId) (inner : World) : Prop where
  done : ∀ {u : World} {s : Scopes} {es : List Event} {v : Value}, I.kept inner es u →
    I.fits u s → I.unwrapped u v → ∃ x,
      I.kept w (.entered scope outer :: (es ++ [.left scope (.ok v)])) x ∧ I.fits x s ∧
      ∀ inside, I.value inside x v
  failed : ∀ {u : World} {s : Scopes} {es : List Event} {e : EvalError}, I.kept inner es u →
    I.fits u s → I.ready u → I.bad e → ∃ x,
      I.kept w (.entered scope outer :: (es ++ [.left scope (.error e)])) x ∧ I.fits x s ∧
      I.ready x
  cut : ∀ {u : World} {es : List Event}, I.cut inner es u → I.ready u → ∃ x,
    I.cut w (.entered scope outer :: es) x ∧ I.ready x

/-- What the evaluation of code does on its own where `here` holds. More may be asked of code
in the operand of a `return`. -/
structure Places (here : World → ScopeId → Prop) (code : Bool → Code) : Prop where
  ready : ∀ {w : World} {scope : ScopeId}, here w scope → I.ready w
  later : ∀ {w u : World} {es : List Event} {scope : ScopeId}, here w scope → I.kept w es u →
    I.ready u → here u scope
  operand : ∀ {inside : Bool} {site : Site} {e : Expr}, (code inside).stmt site (.ret (some e)) →
    (code true).expr (site.child 0) e
  lookup : ∀ {inside : Bool} {w : World} {scope : ScopeId} {site : Site} {name : String}
    {s : Scopes}, here w scope → (code inside).expr site (.ident name) → I.fits w s →
    (∀ v, s.get scope name = some v → I.plain w v) ∧ I.bad (.unbound name)
  binds : ∀ {inside : Bool} {w : World} {scope : ScopeId} {site : Site} {name : String} {e : Expr},
    here w scope → (code inside).stmt site (.bind name e) → I.Binds w scope
  literal : ∀ {inside : Bool} {w : World} {scope : ScopeId} {site : Site} {ps : List String}
    {body : Block} {s : Scopes}, here w scope → (code inside).expr site (.fn ps body) →
    I.fits w s → ∃ u, I.kept w [.created scope site ps body] u ∧ I.fits u s ∧ I.ready u ∧
      I.plain u (.function ⟨ps, body, scope, site⟩)
  returning : ∀ {inside : Bool} {w : World} {site : Site} {e : Option Expr} {v : Value}
    {s : Scopes}, (code inside).stmt site (.ret e) → I.value true w v → I.fits w s →
    ∃ u, I.kept w [.returning v] u ∧ I.fits u s ∧ I.out inside u v

structure Entries (here : World → ScopeId → Prop) (code : Bool → Code) : Prop
    extends I.Places here code where
  opened : ∀ {w : World} {f : Closure} {s : Scopes}, I.ready w → I.plain w (.function f) →
    I.fits w s → ∃ u, here u s.size ∧ I.fits u (s.create (some f.scope)) ∧
      (code false).stmts (f.origin.child 0) f.body ∧ (∀ v, I.plain w v → I.plain u v) ∧
      I.Encloses w s.size f.scope u
  assigns : ∀ {w : World} {scope : ScopeId}, here w scope → I.Binds w scope

def Calls (call : Tracing.Call) : Prop :=
  ∀ (inside : Bool) (w : World) (f : Closure) (vs : List Value), I.ready w →
    I.plain w (.function f) → (∀ v ∈ vs, I.plain w v) → I.Keeps w (I.value inside) (call f vs)

variable {I} {α β : Type} {w u : World} {good : World → α → Prop} {fine : World → β → Prop}
  {inside : Bool}

theorem value_of_plain {v : Value} (hw : I.ready w) (h : I.plain w v) : I.value inside w v := by
  cases v with
  | returned v => exact I.out_of_plain hw h
  | _ => exact ⟨hw, h⟩

theorem value_of_atom {v : Value} (hw : I.ready w) (h : v.Atom) : I.value inside w v :=
  value_of_plain hw (I.atom h)

theorem ready_of_result {r : Option Value} (h : I.result inside w r)
    (hr : ∀ v, r = some (.returned v) → False) : I.ready w := by
  cases r with
  | none => exact h
  | some v =>
    cases v with
    | returned v => exact (hr v rfl).elim
    | _ => exact h.1

theorem value_getD {r : Option Value} (h : I.result inside w r) :
    I.value inside w (r.getD .null) := by
  cases r with
  | none => exact value_of_atom h trivial
  | some v => exact h

theorem unwrapped_unwrap {v : Value} (h : I.value false w v) : I.unwrapped w v.unwrap := by
  cases v with
  | returned v => exact .inl h
  | _ => exact .inr h

theorem unwrapped_getD {r : Option Value} (h : I.result false w r) :
    I.unwrapped w ((r.map Value.unwrap).getD .null) := by
  cases r with
  | none => exact .inr ⟨h, I.atom trivial⟩
  | some v => exact unwrapped_unwrap h

theorem Kept.after {es : List Event} {run : Run α} (h : I.kept w es u) (hrun : I.Kept u good run) :
    I.Kept w good ⟨run.outcome, es ++ run.events⟩ := by
  cases hrun with
  | done v x s fs hkept hfits hgood =>
    exact .done v x s _ (I.kept_append h hkept) hfits hgood
  | failed v e s fs hkept hfits hready hbad =>
    exact .failed v e s _ (I.kept_append h hkept) hfits hready hbad
  | exhausted v fs hcut hready => exact .exhausted v _ (I.cut_append h hcut) hready

namespace Keeps

theorem pure {x : α} (h : good w x) : I.Keeps w good (Tracing.pure x) :=
  fun s hs => .done w x s [] (I.kept_nil w) hs h

theorem fail {e : EvalError} (hw : I.ready w) (h : I.bad e) :
    I.Keeps w good (Tracing.silent (.fail e) : Tracing α) :=
  fun s hs => .failed w e s [] (I.kept_nil w) hs hw h

theorem exhausted (hw : I.ready w) :
    I.Keeps w good (Tracing.silent .exhausted : Tracing α) :=
  fun _ _ => .exhausted w [] (I.cut_nil w) hw

theorem ofExcept {x : Except EvalError α} (hw : I.ready w) (hok : ∀ r, x = .ok r → good w r)
    (herror : ∀ e, x = .error e → I.bad e) : I.Keeps w good (Tracing.silent (.ofExcept x)) := by
  cases x with
  | ok r => exact pure (hok r rfl)
  | error e => exact fail hw (herror e rfl)

theorem applyPrefix (hw : I.ready w) (o : Operator) (v : Value) :
    I.Keeps w (I.value inside) (Tracing.silent (.ofExcept (Monkey.applyPrefix o v))) :=
  ofExcept hw (fun _ h => value_of_atom hw (applyPrefix_atom h)) fun _ h =>
    I.typed (applyPrefix_names h)

theorem applyInfix (hw : I.ready w) (o : Operator) (v v' : Value) :
    I.Keeps w (I.value inside) (Tracing.silent (.ofExcept (Monkey.applyInfix o v v'))) :=
  ofExcept hw (fun _ h => value_of_atom hw (applyInfix_atom h)) fun _ h =>
    I.typed (applyInfix_names h)

theorem bind {first : Tracing α} {next : α → Tracing β} (hfirst : I.Keeps w good first)
    (hnext : ∀ x es u, I.kept w es u → good u x → I.Keeps u fine (next x)) :
    I.Keeps w fine (first.bind next) := by
  intro s hs
  have hrun := hfirst s hs
  unfold Tracing.bind
  generalize first s = run at hrun
  cases hrun with
  | done u x after es hkept hfits hgood =>
    exact Kept.after hkept (hnext x es u hkept hgood after hfits)
  | failed u e after es hkept hfits hready hbad =>
    exact .failed u e after es hkept hfits hready hbad
  | exhausted u es hcut hready => exact .exhausted u es hcut hready

theorem operand {value : Tracing Value} {next : Value → Tracing Value}
    (hvalue : I.Keeps w (I.value inside) value)
    (hnext : ∀ v es u, I.kept w es u → I.ready u → I.plain u v →
      I.Keeps u (I.value inside) (next v)) :
    I.Keeps w (I.value inside) (value.operand next) := by
  apply hvalue.bind
  intro v es u hkept hv
  cases v with
  | returned v => exact pure hv
  | _ => exact hnext _ es u hkept hv.1 hv.2

theorem block {body : Tracing (Option Value)} (h : I.Keeps w (I.result inside) body) :
    I.Keeps w (I.value inside) (body.bind fun r => Tracing.pure (r.getD .null)) :=
  h.bind fun _ _ _ _ hr => pure (value_getD hr)

theorem assign {scope : ScopeId} (h : I.Binds w scope) (name : String) {v : Value}
    (hv : I.plain w v) :
    I.Keeps w (fun u (_ : Unit) => I.ready u) (Tracing.assign scope name v) := by
  intro s hs
  obtain ⟨u, hkept, hfits, hready⟩ := h name v s hv hs
  exact .done u () _ _ hkept hfits hready

theorem returning {here : World → ScopeId → Prop} {code : Bool → Code}
    (P : I.Places here code) {site : Site} {e : Option Expr} {v : Value}
    (hs : (code inside).stmt site (.ret e)) (hv : I.value true w v) :
    I.Keeps w (I.result inside) ((Tracing.record (.returning v)).bind fun _ =>
      Tracing.pure (some (.returned v))) := by
  intro s hfits
  obtain ⟨u, hkept, hfits, hout⟩ := P.returning hs hv hfits
  exact .done u _ s _ hkept hfits hout

end Keeps

/-! ### Over the tree -/

section

variable {here : World → ScopeId → Prop} {code : Bool → Code} {call : Tracing.Call}

mutual

theorem keeps_expr (P : I.Places here code) (hcall : I.Calls call) (scope : ScopeId) :
    (e : Expr) → (inside : Bool) → (w : World) → (site : Site) → here w scope →
    (code inside).expr site e →
    I.Keeps w (I.value inside) (Tracing.expr call site scope e)
  | .ident name, inside, w, site, hhere, he => by
    intro s hs
    obtain ⟨hfound, hbad⟩ := P.lookup hhere he hs
    change I.Kept w _ ⟨Eval.lookup scope name s, []⟩
    unfold Eval.lookup
    split
    · next v hv =>
      exact .done w v s [] (I.kept_nil w) hs (value_of_plain (P.ready hhere) (hfound v hv))
    · exact .failed w _ s [] (I.kept_nil w) hs (P.ready hhere) hbad
  | .int _, _, _, _, hhere, _ => .pure (value_of_atom (P.ready hhere) trivial)
  | .bool _, _, _, _, hhere, _ => .pure (value_of_atom (P.ready hhere) trivial)
  | .prefixOp o e, inside, w, site, hhere, he => by
    apply (keeps_expr P hcall scope e inside w _ hhere ((code inside).prefixOp he)).operand
    intro v es u _ hu _
    exact .applyPrefix hu o v
  | .infixOp o e f, inside, w, site, hhere, he => by
    obtain ⟨he, hf⟩ := (code inside).infixOp he
    apply (keeps_expr P hcall scope e inside w _ hhere he).operand
    intro v es u hkept hu _
    apply (keeps_expr P hcall scope f inside u _ (P.later hhere hkept hu) hf).operand
    intro v' es' u' _ hu' _
    exact .applyInfix hu' o v v'
  | .cond c a none, inside, w, site, hhere, he => by
    obtain ⟨hc, ha⟩ := (code inside).cond he
    apply (keeps_expr P hcall scope c inside w _ hhere hc).operand
    intro v es u hkept hu _
    split
    · exact (keeps_stmts P hcall scope a inside u _ none (P.later hhere hkept hu) ha hu).block
    · exact .pure (value_of_atom hu trivial)
  | .cond c a (some b), inside, w, site, hhere, he => by
    obtain ⟨hc, ha, hb⟩ := (code inside).condElse he
    apply (keeps_expr P hcall scope c inside w _ hhere hc).operand
    intro v es u hkept hu _
    split
    · exact (keeps_stmts P hcall scope a inside u _ none (P.later hhere hkept hu) ha hu).block
    · exact (keeps_stmts P hcall scope b inside u _ none (P.later hhere hkept hu) hb hu).block
  | .fn ps body, inside, w, site, hhere, he => by
    intro s hs
    obtain ⟨u, hkept, hfits, hready, hplain⟩ := P.literal hhere he hs
    exact .done u _ s _ hkept hfits (value_of_plain hready hplain)
  | .call f es, inside, w, site, hhere, he => by
    obtain ⟨hf, hes⟩ := (code inside).call he
    apply (keeps_expr P hcall scope f inside w _ hhere hf).operand
    intro v fs u hkept hu hv
    cases v with
    | function f =>
      apply keeps_exprs P hcall scope es inside u _ (P.later hhere hkept hu) hes
      exact fun vs gs x hmore hx hvs => hcall inside x f vs hx (I.plain_kept hmore hv) hvs
    | _ => exact .fail hu (I.typed ⟨_, rfl⟩)

theorem keeps_exprs (P : I.Places here code) (hcall : I.Calls call) (scope : ScopeId) :
    (es : List Expr) → (inside : Bool) → (w : World) → (site : Site) →
    {next : List Value → Tracing Value} → here w scope → (code inside).exprs site es →
    (∀ vs fs u, I.kept w fs u → I.ready u → (∀ v ∈ vs, I.plain u v) →
      I.Keeps u (I.value inside) (next vs)) →
    I.Keeps w (I.value inside) (Tracing.exprs call site scope es next)
  | [], _, w, _, _, hhere, _, hnext =>
    hnext [] [] w (I.kept_nil w) (P.ready hhere) fun _ h => nomatch h
  | e :: es, inside, w, site, _, hhere, hes, hnext => by
    obtain ⟨he, hes⟩ := (code inside).cons hes
    apply (keeps_expr P hcall scope e inside w _ hhere he).operand
    intro v fs u hkept hu hv
    apply keeps_exprs P hcall scope es inside u _ (P.later hhere hkept hu) hes
    intro vs gs x hmore hx hvs
    refine hnext (v :: vs) (fs ++ gs) x (I.kept_append hkept hmore) hx ?_
    exact List.forall_mem_cons.2 ⟨I.plain_kept hmore hv, hvs⟩

theorem keeps_stmt (P : I.Places here code) (hcall : I.Calls call) (scope : ScopeId) :
    (s : Stmt) → (inside : Bool) → (w : World) → (site : Site) → here w scope →
    (code inside).stmt site s →
    I.Keeps w (I.result inside) (Tracing.stmt call site scope s)
  | .bind name e, inside, w, site, hhere, hs => by
    apply (keeps_expr P hcall scope e inside w _ hhere ((code inside).bind hs)).bind
    intro v es u hkept hv
    cases v with
    | returned v => exact .pure hv
    | _ =>
      have hbinds := P.binds (P.later hhere hkept hv.1) hs
      exact (Keeps.assign hbinds name hv.2).bind fun _ _ _ _ hready => .pure hready
  | .ret none, inside, w, site, hhere, hs =>
    Keeps.returning P hs (value_of_atom (P.ready hhere) trivial)
  | .ret (some e), inside, w, site, hhere, hs =>
    (keeps_expr P hcall scope e true w _ hhere (P.operand hs)).bind fun _ _ _ _ hv =>
      Keeps.returning P hs hv
  | .expr e, inside, w, site, hhere, hs =>
    (keeps_expr P hcall scope e inside w _ hhere ((code inside).only hs)).bind
      fun _ _ _ _ hv => .pure hv
  | .block body, inside, w, site, hhere, hs =>
    keeps_stmts P hcall scope body inside w _ none hhere ((code inside).block hs) (P.ready hhere)

theorem keeps_stmts (P : I.Places here code) (hcall : I.Calls call) (scope : ScopeId) :
    (ss : List Stmt) → (inside : Bool) → (w : World) → (site : Site) →
    (before : Option Value) → here w scope → (code inside).stmts site ss →
    I.result inside w before →
    I.Keeps w (I.result inside) (Tracing.stmts call site scope ss before)
  | [], _, _, _, _, _, _, hbefore => .pure hbefore
  | s :: ss, inside, w, site, _, hhere, hss, _ => by
    obtain ⟨hs, hss⟩ := (code inside).seq hss
    apply (keeps_stmt P hcall scope s inside w _ hhere hs).bind
    intro r es u hkept hr
    split
    · exact .pure hr
    · next hstays =>
      have hu := ready_of_result hr hstays
      exact keeps_stmts P hcall scope ss inside u _ r (P.later hhere hkept hu) hss hr

end

/-! ### Calls -/

theorem keeps_assignAll (E : I.Entries here code) {scope : ScopeId}
    {bindings : List (String × Value)} (hhere : here w scope)
    (h : ∀ binding ∈ bindings, I.plain w binding.2) :
    I.Keeps w (fun u _ => here u scope) (Tracing.assignAll scope bindings) := by
  induction bindings generalizing w with
  | nil => exact .pure hhere
  | cons binding rest ih =>
    obtain ⟨hfirst, hrest⟩ := List.forall_mem_cons.1 h
    apply (Keeps.assign (E.assigns hhere) binding.1 hfirst).bind
    intro _ es u hkept hu
    exact ih (E.later hhere hkept hu) fun b hb => I.plain_kept hkept (hrest b hb)

theorem keeps_body (E : I.Entries here code) (hcall : I.Calls call) {scope : ScopeId} {site : Site}
    {body : Block} {bindings : List (String × Value)} (hhere : here w scope)
    (hbody : (code false).stmts site body)
    (hbindings : ∀ binding ∈ bindings, I.plain w binding.2) :
    I.Keeps w I.unwrapped ((Tracing.assignAll scope bindings).bind fun _ =>
      (Tracing.stmts call site scope body none).bind fun r =>
        Tracing.pure ((r.map Value.unwrap).getD .null)) := by
  apply (keeps_assignAll E hhere hbindings).bind
  intro _ _ u _ hhere
  apply (keeps_stmts E.toPlaces hcall scope body false u site none hhere hbody (E.ready hhere)).bind
  exact fun _ _ _ _ hr => .pure (unwrapped_getD hr)

theorem Encloses.called {s : Scopes} {outer : ScopeId} (h : I.Encloses w s.size outer u)
    {body : ScopeId → Tracing Value}
    (hbody : I.Kept u I.unwrapped (body s.size (s.create (some outer)))) :
    I.Kept w (I.value inside)
      (((Tracing.enclose outer).bind fun scope => Tracing.leaving scope (body scope)) s) := by
  simp only [Tracing.bind, Tracing.enclose, Eval.enclose, Tracing.leaving, List.singleton_append]
  generalize body s.size (s.create (some outer)) = run at hbody
  cases hbody with
  | done v x after es hkept hfits hx =>
    obtain ⟨w', hkept, hfits, hvalue⟩ := h.done hkept hfits hx
    exact .done w' x after _ hkept hfits (hvalue inside)
  | failed v e after es hkept hfits hready hbad =>
    obtain ⟨w', hkept, hfits, hready⟩ := h.failed hkept hfits hready hbad
    exact .failed w' e after _ hkept hfits hready hbad
  | exhausted v es hcut hready =>
    obtain ⟨w', hcut, hready⟩ := h.cut hcut hready
    exact .exhausted w' _ hcut hready

theorem calls_enter (E : I.Entries here code) (hcall : I.Calls call) :
    I.Calls (Tracing.enter call) := by
  intro inside w f vs hw hf hvs
  unfold Tracing.enter
  split
  · intro s hs
    obtain ⟨u, hhere, hfits, hcode, hplain, hencloses⟩ := E.opened hw hf hs
    have hbindings : ∀ binding ∈ f.params.zip vs, I.plain u binding.2 :=
      fun binding hb => hplain _ (hvs _ (List.of_mem_zip hb).2)
    exact hencloses.called (keeps_body E hcall hhere hcode hbindings _ hfits)
  · exact .fail hw (I.typed trivial)

theorem calls_apply (E : I.Entries here code) (limit : Nat) : I.Calls (Tracing.apply limit) := by
  -- on the number of calls that may be active
  induction limit with
  | zero => exact fun _ _ _ _ hw _ _ => .exhausted hw
  | succ limit ih => exact calls_enter E ih

theorem keeps_program (E : I.Entries here code) (limit : Nat) {p : Program} {number : Nat}
    {scope : ScopeId} (hhere : here w scope) (hp : (code false).stmts ⟨number, []⟩ p) :
    I.Keeps w I.answer (Tracing.program limit p number scope) := by
  have hready := E.ready hhere
  apply (keeps_stmts E.toPlaces (calls_apply E limit) scope p false w _ none hhere hp hready).bind
  intro r _ _ _ hr
  refine .pure ?_
  cases r with
  | none => exact hr
  | some v => exact unwrapped_unwrap hr

end

end Invariant

end Monkey
