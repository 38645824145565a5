import Mathlib
import Monkey.Proofs.Hosts

/-!
# When two functions are the same

Functions are compared by the place of their literal and by the scope that they have
captured, and by nothing else. In whatever way programs are parsed and evaluated, this
tells apart what was created apart: two functions are the same exactly if one literal,
of one parse, was evaluated for both in one scope. So their parameters and bodies agree
as well, and the calls of a function create different ones.
-/

set_option autoImplicit false

namespace Monkey

/-! ### Comparing values -/

theorem Closure.same_iff (f g : Closure) :
    f.same g = true ↔ f.origin = g.origin ∧ f.scope = g.scope := by
  simp [Closure.same]

/-- What comparisons see of a value: of a function, neither parameters nor body. -/
def Value.identity : Value → Value
  | .function f => .function ⟨[], [], f.scope, f.origin⟩
  | .returned v => .returned v.identity
  | v => v

theorem Value.same_iff (v w : Value) : v.same w = true ↔ v.identity = w.identity := by
  induction v generalizing w with
  | function f => cases w <;> simp [same, identity, Closure.same_iff, and_comm]
  | returned v ih => cases w <;> simp [same, identity, ih]
  | _ => cases w <;> simp [same, identity]

theorem Value.same_equivalence : Equivalence fun v w : Value => v.same w = true where
  refl v := (v.same_iff v).2 rfl
  symm {v w} h := (w.same_iff v).2 ((v.same_iff w).1 h).symm
  trans {u v w} h h' := (u.same_iff w).2 (((u.same_iff v).1 h).trans ((v.same_iff w).1 h'))

theorem Closure.same_refl (f : Closure) : f.same f = true := (f.same_iff f).2 ⟨rfl, rfl⟩

/-! ### Copies -/

def Closure.proceed (call : Call) (closure : Closure) (scope : ScopeId) : Eval Value :=
  (Stmt.evalAll call (closure.origin.child 0) scope closure.body none).bind fun r =>
    .pure ((r.map Value.unwrap).getD .null)

theorem Closure.enter_proceeds (call : Call) {closure : Closure} {arguments : List Value}
    (h : closure.params.length = arguments.length) (s : Scopes) :
    closure.enter call arguments s = closure.proceed call s.size
      ((s.create (some closure.scope)).setAll s.size (closure.params.zip arguments)) := by
  unfold enter
  rw [if_pos h, Eval.enclose_assignAll]
  rfl

namespace Scopes

variable {s : Scopes} {i : ScopeId} {name : String} {v : Value}

def Binds (s : Scopes) (i : ScopeId) (name : String) (v : Value) : Prop :=
  ∃ scope : Scope, s[i]? = some scope ∧ scope.get name = some v

theorem Binds.get (h : s.Binds i name v) : s.get i name = some v := by
  obtain ⟨scope, hscope, hv⟩ := h
  exact get_bound hscope hv

theorem binds_set (h : i < s.size) (name : String) (v : Value) :
    (s.set i name v).Binds i name v :=
  ⟨_, set_self name v (Array.getElem?_eq_getElem h), Scope.get_set_self _ name v⟩

theorem Binds.set_of_ne (h : s.Binds i name v) {other : String} (hne : name ≠ other) (w : Value) :
    (s.set i other w).Binds i name v := by
  obtain ⟨scope, hscope, hv⟩ := h
  exact ⟨_, set_self other w hscope, (Scope.get_set_of_ne scope other name w hne).trans hv⟩

theorem Binds.setAll {bindings : List (String × Value)} (h : s.Binds i name v)
    (hfree : ∀ binding ∈ bindings, name ≠ binding.1) : (s.setAll i bindings).Binds i name v := by
  induction bindings generalizing s with
  | nil => exact h
  | cons binding rest ih =>
    obtain ⟨hne, hrest⟩ := List.forall_mem_cons.1 hfree
    exact ih (h.set_of_ne hne binding.2) hrest

theorem binds_setAll {bindings : List (String × Value)} (h : i < s.size) {k : Nat}
    (hk : bindings[k]? = some (name, v))
    (hlast : ∀ j binding, k < j → bindings[j]? = some binding → name ≠ binding.1) :
    (s.setAll i bindings).Binds i name v := by
  induction bindings generalizing s k with
  | nil => cases hk
  | cons binding rest ih =>
    cases k with
    | zero =>
      cases hk
      refine (binds_set h name v).setAll fun binding hmem => ?_
      obtain ⟨j, hj⟩ := List.mem_iff_getElem?.1 hmem
      exact hlast (j + 1) binding (Nat.succ_pos j) hj
    | succ k =>
      have hsize : i < (s.set i binding.1 binding.2).size := (size_set s _ _ _).symm ▸ h
      exact ih hsize hk fun j b hj => hlast (j + 1) b (Nat.succ_lt_succ hj)

end Scopes

section

variable {call : Call} {site : Site} {scope : ScopeId} {s after : Scopes} {f : Closure}

theorem let_copies {e : Expr} (h : e.eval call (site.child 0) scope s = .done (.function f) after)
    (hscope : scope < after.size) (name : String) :
    ∃ last, (Stmt.bind name e).eval call site scope s = .done none last ∧
      last.get scope name = some (.function f) := by
  refine ⟨after.set scope name (.function f), ?_, (Scopes.binds_set hscope name _).get⟩
  simp only [Stmt.eval, Eval.bind, h]
  rfl

theorem argument_copies {closure : Closure} {arguments : List Value} {i : Nat} {name : String}
    (hlength : closure.params.length = arguments.length) (hname : closure.params[i]? = some name)
    (hlast : ∀ j, i < j → closure.params[j]? ≠ some name)
    (hf : arguments[i]? = some (.function f)) :
    ∃ inside, closure.enter call arguments s = closure.proceed call s.size inside ∧
      inside.get s.size name = some (.function f) := by
  refine ⟨_, closure.enter_proceeds call hlength s, Scopes.Binds.get ?_⟩
  have hnew : s.size < (s.create (some closure.scope)).size := by
    rw [size_create]
    exact Nat.lt_succ_self _
  have hbinding : (closure.params.zip arguments)[i]? = some (name, .function f) :=
    List.getElem?_zip_eq_some.2 ⟨hname, hf⟩
  refine Scopes.binds_setAll hnew hbinding fun j binding hj hlater => ?_
  rintro rfl
  exact hlast j hj (List.getElem?_zip_eq_some.1 hlater).1

theorem return_copies {e : Expr} {rest : List Stmt} {before : Option Value}
    (h : e.eval call ((site.child 0).child 0) scope s = .done (.function f) after) :
    Stmt.evalAll call site scope (.ret (some e) :: rest) before s =
      .done (some (.returned (.function f))) after := by
  simp only [Stmt.evalAll, Stmt.eval, Eval.bind, h]
  rfl

theorem call_copies {closure : Closure} {v : Value}
    (h : Stmt.evalAll call (closure.origin.child 0) scope closure.body none s =
      .done (some v) after) (hv : v = .function f ∨ v = .returned (.function f)) :
    closure.proceed call scope s = .done (.function f) after := by
  rw [Closure.proceed, Eval.bind, h]
  rcases hv with rfl | rfl <;> rfl

end

/-- Whatever gets the function from somewhere gets one that is the same. -/
structure Closure.Copied (f : Closure) : Prop where
  /-- The name that a `let` binds to it. -/
  bound : ∀ (call : Call) (site : Site) (scope : ScopeId) (name : String) (e : Expr)
    (s after : Scopes), e.eval call (site.child 0) scope s = .done (.function f) after →
    scope < after.size → ∃ last g, (Stmt.bind name e).eval call site scope s = .done none last ∧
      last.get scope name = some (.function g) ∧ g.same f = true
  /-- The parameter that it is the argument for, unless the name occurs again. -/
  passed : ∀ (call : Call) (closure : Closure) (arguments : List Value) (i : Nat) (name : String)
    (s : Scopes), closure.params.length = arguments.length → closure.params[i]? = some name →
    (∀ j, i < j → closure.params[j]? ≠ some name) → arguments[i]? = some (.function f) →
    ∃ inside g, closure.enter call arguments s = closure.proceed call s.size inside ∧
      inside.get s.size name = some (.function g) ∧ g.same f = true
  /-- The block that a `return` leaves with it. -/
  returned : ∀ (call : Call) (site : Site) (scope : ScopeId) (e : Expr) (rest : List Stmt)
    (before : Option Value) (s after : Scopes),
    e.eval call ((site.child 0).child 0) scope s = .done (.function f) after →
    ∃ g, Stmt.evalAll call site scope (.ret (some e) :: rest) before s =
      .done (some (.returned (.function g))) after ∧ g.same f = true
  /-- The call whose body has it for a value. -/
  yielded : ∀ (call : Call) (closure : Closure) (scope : ScopeId) (v : Value) (s after : Scopes),
    Stmt.evalAll call (closure.origin.child 0) scope closure.body none s =
      .done (some v) after → v = .function f ∨ v = .returned (.function f) →
    ∃ g, closure.proceed call scope s = .done (.function g) after ∧ g.same f = true

theorem Closure.copied (f : Closure) : f.Copied where
  bound _ _ _ name _ _ _ he hscope := by
    obtain ⟨last, hlast, hf⟩ := let_copies he hscope name
    exact ⟨last, f, hlast, hf, f.same_refl⟩
  passed _ _ _ _ _ _ hlength hname hlast hf := by
    obtain ⟨inside, hinside, hf⟩ := argument_copies hlength hname hlast hf
    exact ⟨inside, f, hinside, hf, f.same_refl⟩
  returned _ _ _ _ _ _ _ _ he := ⟨f, return_copies he, f.same_refl⟩
  yielded _ _ _ _ _ _ hbody hv := ⟨f, call_copies hbody hv, f.same_refl⟩

/-! ### Functions that a host holds -/

namespace Host

/-- A value that the host has got is this function, or a name means it in some scope. -/
def Holds (host : Host) (f : Closure) : Prop :=
  (∃ v ∈ host.values, v.closure? = some f) ∨
    ∃ i name v, host.scopes.get i name = some v ∧ v.closure? = some f

/-- The function was created by evaluating the literal at `node` in `scope`, and it has the
parameters and the body of this literal. -/
def Created (host : Host) (f : Closure) (node : Site) (scope : ScopeId) : Prop :=
  node.literal? host.programs = some (f.params, f.body) ∧
    ∃ c ∈ host.register.creations, c.closure = f ∧ c.node = node ∧ c.within.scope = scope

section

variable {host : Host} {f g : Closure} {node : Site} {scope : ScopeId}

theorem Sound.lists (h : host.Sound host.programs) (hf : host.Holds f) : host.register.Lists f := by
  rcases hf with ⟨v, hv, hf⟩ | ⟨i, name, v, hv, hf⟩
  · exact h.values v hv f hf
  · exact h.describes.get hv f hf

theorem Sound.created (h : host.Sound host.programs) (hf : host.register.Lists f) :
    host.Created f f.origin f.scope := by
  obtain ⟨c, hc, rfl⟩ := hf
  exact ⟨(h.describes.literal c hc).1, c, hc, rfl, rfl, rfl⟩

theorem Created.captured (h : host.Created f node scope) : f.origin = node ∧ f.scope = scope := by
  obtain ⟨_, c, _, rfl, rfl, rfl⟩ := h
  exact ⟨rfl, rfl⟩

theorem Created.code_eq (hf : host.Created f node scope) (hg : host.Created g node scope) :
    f.params = g.params ∧ f.body = g.body := by
  have hboth := hf.1.symm.trans hg.1
  rwa [Option.some.injEq, Prod.mk.injEq] at hboth

theorem Sound.same_iff (h : host.Sound host.programs) (hf : host.register.Lists f)
    (hg : host.register.Lists g) :
    f.same g = true ↔ ∃ node scope, host.Created f node scope ∧ host.Created g node scope := by
  rw [Closure.same_iff]
  constructor
  · rintro ⟨horigin, hscope⟩
    have hcreated := h.created hg
    rw [← horigin, ← hscope] at hcreated
    exact ⟨_, _, h.created hf, hcreated⟩
  · rintro ⟨node, scope, hf, hg⟩
    obtain ⟨rfl, rfl⟩ := hf.captured
    exact ⟨hg.captured.1.symm, hg.captured.2.symm⟩

end

end Host

/-- In whatever way a host has parsed and evaluated programs: two functions that it holds
are the same exactly if both were created by evaluating one literal, of one parse, in one
scope, and then they agree in parameters, body and captured scope; what was created within
different calls is never the same. A `let`, an argument, a `return` and a call hand on the
same function, and sameness is an equivalence on all values. -/
theorem function_identity {actions : List Host.Action} {host : Host}
    (h : Host.empty.performAll? actions = some host) :
    (∀ f g, host.Holds f → host.Holds g →
      (f.same g = true ↔
        ∃ node scope, host.Created f node scope ∧ host.Created g node scope) ∧
      (f.same g = true → f.params = g.params ∧ f.body = g.body ∧ f.scope = g.scope)) ∧
    (∀ c ∈ host.register.creations, ∀ d ∈ host.register.creations, ∀ i j,
      c.within.call = some i → d.within.call = some j → i ≠ j →
        c.closure.same d.closure = false) ∧
    (∀ f : Closure, f.Copied) ∧
    Equivalence fun v w : Value => v.same w = true := by
  have hsound : host.Sound host.programs :=
    Host.performAll_sound h (fun _ _ hp => hp) fun _ => Host.sound_empty _
  refine ⟨fun f g hf hg => ?_, fun c hc d hd i j hi hj hne => ?_, Closure.copied,
    Value.same_equivalence⟩
  · have hiff := hsound.same_iff (hsound.lists hf) (hsound.lists hg)
    refine ⟨hiff, fun hsame => ?_⟩
    obtain ⟨node, scope, hf, hg⟩ := hiff.1 hsame
    obtain ⟨hparams, hbody⟩ := hf.code_eq hg
    exact ⟨hparams, hbody, hf.captured.2.trans hg.captured.2.symm⟩
  · have hscope := hsound.describes.scope_ne hc hd hi hj hne
    exact Bool.eq_false_iff.2 fun hsame => hscope ((Closure.same_iff _ _).1 hsame).2

/-- One literal, evaluated within two calls, and other names for what the first call made. -/
theorem calls_make_different_functions :
    let source := "let m = fn() \x7b fn(x) \x7b x \x7d \x7d; let f = m(); let g = m(); let h = f"
    let body : Block := [.expr (.ident "x")]
    let outside : Creation := ⟨[], [.expr (.fn ["x"] body)], ⟨0, [0, 0]⟩, ⟨none, 0⟩⟩
    let first : Creation := ⟨["x"], body, ⟨0, [0, 0, 0, 0, 0]⟩, ⟨some 0, 1⟩⟩
    let second : Creation := ⟨["x"], body, ⟨0, [0, 0, 0, 0, 0]⟩, ⟨some 1, 2⟩⟩
    let program : Program := [.bind "m" (.fn [] outside.body), .bind "f" (.call (.ident "m") []),
      .bind "g" (.call (.ident "m") []), .bind "h" (.ident "f")]
    let bindings := [("h", first), ("g", second), ("f", first), ("m", outside)].map fun binding =>
      (binding.1, Value.function binding.2.closure)
    let host : Host := ⟨#[program], #[⟨none, bindings⟩, ⟨some 0, []⟩, ⟨some 0, []⟩], [],
      ⟨#[1, 2], [], [second, first, outside]⟩⟩
    Host.empty.performAll? [.root, .parse (Bytes.ofText source), .evaluate 1 0 0] = some host ∧
      host.Created first.closure first.node 1 ∧
      first.closure.same second.closure = false ∧
      ∃ last g, (Stmt.bind "k" (.ident "h")).eval (Closure.apply 0) ⟨1, [0]⟩ 0 host.scopes =
        .done none last ∧ last.get 0 "k" = some (.function g) ∧ g.same first.closure = true := by
  intro source body outside first second program bindings host
  have hhost : Host.empty.performAll? [.root, .parse (Bytes.ofText source), .evaluate 1 0 0] =
      some host := by cbv
  obtain ⟨hsame, hcalls, hcopied, _⟩ := function_identity hhost
  have hget : host.scopes.get 0 "h" = some (.function first.closure) := by cbv
  have hf : host.Holds first.closure := .inr ⟨0, "h", .function first.closure, hget, rfl⟩
  have heval : (Expr.ident "h").eval (Closure.apply 0) ⟨1, [0, 0]⟩ 0 host.scopes =
      .done (.function first.closure) host.scopes := by
    rw [Expr.eval, Eval.lookup, hget]
  obtain ⟨node, scope, hcreated, _⟩ := (hsame _ _ hf hf).1.1 (Closure.same_refl _)
  obtain ⟨rfl, rfl⟩ := hcreated.captured
  exact ⟨hhost, hcreated, hcalls first (by simp [host]) second (by simp [host]) 0 1 rfl rfl
    Nat.zero_ne_one, (hcopied first.closure).bound _ _ _ "k" _ _ _ heval (by decide)⟩

end Monkey
