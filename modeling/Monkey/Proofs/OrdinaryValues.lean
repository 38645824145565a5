import Monkey.Syntax.Names
import Monkey.Proofs.Frame
import Monkey.Proofs.PlainScopes

/-!
# Nothing but ordinary values is ever bound

Integers, booleans, `null` and functions are the ordinary values. A `let` and a
parameter take their values from operands, and an operand that is on its way out
is handed up before anything is bound, however many wrappers it carries. Runtime
errors end an evaluation instead of becoming values. So where only ordinary
values are bound, this is so at every later moment, also if an evaluation fails
or never comes to an end.

The names in the code are followed along: the kinds of names that occur in
functions, and in errors, are those of the code that is evaluated.
-/

set_option autoImplicit false

namespace Monkey

/-- An integer, a boolean, `null`, or a function in which all names are of the kind. -/
def Value.Ordinary (kind : String → Prop) : Value → Prop
  | .function f => (Expr.fn f.params f.body).Names kind
  | .returned _ => False
  | .error _ => False
  | .int _ => True
  | .bool _ => True
  | .null => True

def Value.Yielded (kind : String → Prop) : Value → Prop
  | .returned v => v.Yielded kind
  | v => v.Ordinary kind

def Scopes.Ordinary (kind : String → Prop) (s : Scopes) : Prop :=
  ∀ (i : ScopeId) (scope : Scope) (name : String) (v : Value), s[i]? = some scope →
    scope.get name = some v → v.Ordinary kind

def Event.Ordinary (kind : String → Prop) : Event → Prop
  | .entered _ _ => True
  | .bound _ _ v => v.Ordinary kind
  | .left _ (.ok v) => v.Yielded kind
  | .left _ (.error e) => e.Names kind
  | .returning v => v.Yielded kind
  | .created _ _ ps body => (Expr.fn ps body).Names kind

section

variable {kind : String → Prop}

theorem Value.Ordinary.yielded {v : Value} (h : v.Ordinary kind) : v.Yielded kind := by
  cases v with
  | returned w => exact h.elim
  | _ => exact h

theorem Value.Atom.ordinary {v : Value} (h : v.Atom) : v.Ordinary kind := by
  cases v with
  | int n => exact trivial
  | bool b => exact trivial
  | null => exact trivial
  | _ => exact h.elim

namespace Scopes.Ordinary

variable {s : Scopes}

theorem get {i : ScopeId} {name : String} {v : Value} (h : s.Ordinary kind)
    (hv : s.get i name = some v) : v.Ordinary kind := by
  obtain ⟨j, scope, hscope, hbound⟩ := Scopes.bound_of_get hv
  exact h j scope name v hscope hbound

theorem set {i : ScopeId} {name : String} {v : Value} (h : s.Ordinary kind)
    (hv : v.Ordinary kind) : (s.set i name v).Ordinary kind := by
  intro j scope key w hscope hw
  obtain ⟨old, hold, rfl | rfl⟩ := set_cases hscope
  · exact h j scope key w hold hw
  · by_cases hkey : key = name
    · rw [hkey, Scope.get_set_self, Option.some.injEq] at hw
      exact hw ▸ hv
    · rw [Scope.get_set_of_ne _ _ _ _ hkey] at hw
      exact h j old key w hold hw

theorem create {outer : Option ScopeId} (h : s.Ordinary kind) : (s.create outer).Ordinary kind := by
  intro j scope key w hscope hw
  rcases create_cases hscope with hold | ⟨rfl, rfl⟩
  · exact h j scope key w hold hw
  · cases hw

theorem event {event : Event} (h : s.Ordinary kind) (hevent : event.Ordinary kind) :
    (event.replay s).Ordinary kind := by
  cases event with
  | entered scope outer => exact h.create
  | bound scope name v => exact h.set hevent
  | _ => exact h

theorem replay {es : List Event} (h : s.Ordinary kind) (hes : ∀ event ∈ es, event.Ordinary kind) :
    (Monkey.replay es s).Ordinary kind := by
  induction es generalizing s with
  | nil => exact h
  | cons event es ih =>
    obtain ⟨hevent, hrest⟩ := List.forall_mem_cons.1 hes
    exact ih (h.event hevent) hrest

end Scopes.Ordinary

def namesCode (kind : String → Prop) : Code where
  expr := fun _ e => e.Names kind
  exprs := fun _ es => Expr.AllNames kind es
  stmt := fun _ s => s.Names kind
  stmts := fun _ ss => Stmt.AllNames kind ss
  prefixOp := id
  infixOp := id
  cond := id
  condElse := id
  call := id
  cons := id
  bind := And.right
  only := id
  block := id
  seq := id

theorem EvalError.Names.imp {kind' : String → Prop} {e : EvalError} (h : e.Names kind)
    (himp : ∀ name, kind name → kind' name) : e.Names kind' := by
  cases e with
  | unbound name => exact himp name h
  | _ => exact h

namespace Invariant

/-- Only ordinary values are bound, and all that comes about is ordinary, in wrappers. -/
def ordinary (kind : String → Prop) : Invariant Unit where
  kept := fun _ es _ => ∀ event ∈ es, event.Ordinary kind
  cut := fun _ es _ => ∀ event ∈ es, event.Ordinary kind
  fits := fun _ s => s.Ordinary kind
  ready := fun _ => True
  plain := fun _ v => v.Ordinary kind
  out := fun _ _ v => v.Yielded kind
  bad := fun e => e.Names kind
  kept_nil := fun _ => List.forall_mem_nil _
  kept_append := fun h h' => List.forall_mem_append.2 ⟨h, h'⟩
  cut_nil := fun _ => List.forall_mem_nil _
  cut_append := fun h h' => List.forall_mem_append.2 ⟨h, h'⟩
  plain_kept := fun _ h => h
  atom := Value.Atom.ordinary
  out_of_plain := fun _ h => h.elim
  typed := fun h => h.imp fun _ => False.elim

theorem ordinary_value {inside : Bool} {v : Value} :
    (ordinary kind).value inside () v ↔ v.Yielded kind := by
  cases v with
  | returned v => exact Iff.rfl
  | _ => exact ⟨And.right, And.intro trivial⟩

theorem ordinary_unwrapped {v : Value} (h : (ordinary kind).unwrapped () v) : v.Yielded kind :=
  h.elim id fun h => h.2.yielded

theorem ordinary_binds (scope : ScopeId) : (ordinary kind).Binds () scope :=
  fun _ _ _ hv hs => ⟨(), List.forall_mem_singleton.2 hv, hs.set hv, trivial⟩

theorem ordinary_places (kind : String → Prop) :
    (ordinary kind).Places (fun _ _ => True) fun _ => namesCode kind where
  ready := fun _ => trivial
  later := fun _ _ _ => trivial
  operand := id
  lookup := fun _ hname hs => ⟨fun _ hv => hs.get hv, hname⟩
  binds := fun _ _ => ordinary_binds _
  literal := fun _ he hs => ⟨(), List.forall_mem_singleton.2 he, hs, trivial, he⟩
  returning := fun _ hv hs =>
    ⟨(), List.forall_mem_singleton.2 (ordinary_value.1 hv), hs, ordinary_value.1 hv⟩

theorem ordinary_encloses (scope outer : ScopeId) :
    (ordinary kind).Encloses () scope outer () := by
  have hended : ∀ {es : List Event} {result : Except EvalError Value},
      (∀ event ∈ es, event.Ordinary kind) → (Event.left scope result).Ordinary kind →
      ∀ event ∈ .entered scope outer :: (es ++ [.left scope result]), event.Ordinary kind :=
    fun hes hresult => List.forall_mem_cons.2
      ⟨trivial, List.forall_mem_append.2 ⟨hes, List.forall_mem_singleton.2 hresult⟩⟩
  constructor
  · exact fun hes hs hv =>
      ⟨(), hended hes (ordinary_unwrapped hv), hs,
        fun _ => ordinary_value.2 (ordinary_unwrapped hv)⟩
  · exact fun hes hs _ he => ⟨(), hended hes he, hs, trivial⟩
  · exact fun hes _ => ⟨(), List.forall_mem_cons.2 ⟨trivial, hes⟩, trivial⟩

theorem ordinary_entries (kind : String → Prop) :
    (ordinary kind).Entries (fun _ _ => True) fun _ => namesCode kind where
  toPlaces := ordinary_places kind
  opened := fun _ hf hs =>
    ⟨(), trivial, hs.create, hf.2, fun _ hv => hv, ordinary_encloses _ _⟩
  assigns := fun _ => ordinary_binds _

end Invariant

end

/-! ### Sessions -/

section

variable {kind : String → Prop} {session : Session}

theorem Session.run_ordinary (h : session.scopes.Ordinary kind) (task : Task)
    (hp : Stmt.AllNames kind task.program) :
    (Invariant.ordinary kind).Kept () (Invariant.ordinary kind).answer (session.run task) :=
  Invariant.keeps_program (Invariant.ordinary_entries kind) task.limit trivial hp _ h

theorem Session.events_ordinary (h : session.scopes.Ordinary kind) {task : Task}
    (hp : Stmt.AllNames kind task.program) :
    ∀ event ∈ (session.run task).events, event.Ordinary kind := by
  have hrun := Session.run_ordinary h task hp
  generalize session.run task = run at hrun
  cases hrun with
  | done _ _ _ _ hevents => exact hevents
  | failed _ _ _ _ hevents => exact hevents
  | exhausted _ _ hevents => exact hevents

theorem Session.evaluate_ordinary (h : session.scopes.Ordinary kind) {limit : Nat} {p : Program}
    (hp : Stmt.AllNames kind p) {scope : ScopeId} {reply : Reply} {later : Session}
    (hlater : session.evaluate limit p scope = some (reply, later)) :
    later.scopes.Ordinary kind ∧
    (∀ v, reply = .finished (some v) → v.Yielded kind) ∧
    ∀ e, reply = .failed e → e.Names kind := by
  have hrun := Session.run_ordinary h ⟨limit, p, scope⟩ hp
  unfold Session.evaluate at hlater
  rw [← session.run_outcome ⟨limit, p, scope⟩] at hlater
  generalize session.run ⟨limit, p, scope⟩ = run at hrun hlater
  cases hrun with
  | done _ r after es _ hafter hr =>
    cases hlater
    refine ⟨hafter, ?_, fun _ h => nomatch h⟩
    rintro v ⟨⟩
    exact Invariant.ordinary_unwrapped hr
  | failed _ e after es _ hafter _ he =>
    cases hlater
    refine ⟨hafter, fun _ h => (nomatch h), ?_⟩
    rintro _ ⟨⟩
    exact he
  | exhausted => cases hlater

theorem Session.history_ordinary (h : session.scopes.Ordinary kind) {tasks : List Task}
    (htasks : ∀ task ∈ tasks, Stmt.AllNames kind task.program) :
    ∀ event ∈ session.history tasks, event.Ordinary kind := by
  induction tasks generalizing session with
  | nil => exact List.forall_mem_nil _
  | cons task rest ih =>
    obtain ⟨hp, hrest⟩ := List.forall_mem_cons.1 htasks
    simp only [Session.history]
    refine List.forall_mem_append.2 ⟨Session.events_ordinary h hp, ?_⟩
    cases hrun : session.evaluate task.limit task.program task.scope with
    | none => exact List.forall_mem_nil _
    | some made =>
      obtain ⟨reply, middle⟩ := made
      exact ih (Session.evaluate_ordinary h hp hrun).1 hrest

end

/-! ### Whatever the names -/

def Value.isPlain : Value → Bool
  | .returned _ => false
  | .error _ => false
  | _ => true

def Value.errorFree : Value → Bool
  | .returned v => v.errorFree
  | .error _ => false
  | _ => true

def Scopes.BindPlain (s : Scopes) : Prop :=
  ∀ (i : ScopeId) (scope : Scope) (name : String) (v : Value), s[i]? = some scope →
    scope.get name = some v → v.isPlain = true

theorem Value.ordinary_any_iff (v : Value) : v.Ordinary anyName ↔ v.isPlain = true := by
  cases v with
  | function f => exact ⟨fun _ => rfl, fun _ => Expr.names_any _⟩
  | returned w => exact ⟨False.elim, fun h => nomatch h⟩
  | error e => exact ⟨False.elim, fun h => nomatch h⟩
  | int n => exact ⟨fun _ => rfl, fun _ => trivial⟩
  | bool b => exact ⟨fun _ => rfl, fun _ => trivial⟩
  | null => exact ⟨fun _ => rfl, fun _ => trivial⟩

theorem Value.Yielded.errorFree {kind : String → Prop} {v : Value} (h : v.Yielded kind) :
    v.errorFree = true := by
  induction v with
  | returned w ih => exact ih h
  | error e => exact h.elim
  | _ => rfl

theorem Scopes.ordinary_any_iff (s : Scopes) : s.Ordinary anyName ↔ s.BindPlain := by
  unfold Scopes.Ordinary Scopes.BindPlain
  simp only [Value.ordinary_any_iff]

/-- If names are bound to integers, booleans, `null` and functions only, then so they are
at every moment while programs are evaluated one after another, in any scopes, up to the
end or to where one of them fails or goes on for ever: every `let` and every parameter
binds such a value. No call and no evaluation, at any moment, yields an error as its value. -/
theorem plain_bindings_kept {session : Session} (h : session.scopes.BindPlain)
    (tasks : List Task) :
    (∀ before later, session.history tasks = before ++ later →
      (replay before session.scopes).BindPlain ∧
      ∀ limit site scope e v after,
        Expr.eval (Closure.apply limit) site scope e (replay before session.scopes) =
          .done v after → v.errorFree = true) ∧
    (∀ scope name v, .bound scope name v ∈ session.history tasks → v.isPlain = true) ∧
    (∀ scope v, .left scope (.ok v) ∈ session.history tasks → v.errorFree = true) ∧
    ∀ last, session.complete tasks = some last → last.scopes.BindPlain ∧
      ∀ limit p scope reply after, last.evaluate limit p scope = some (reply, after) →
        after.scopes.BindPlain ∧ ∀ v, reply = .finished (some v) → v.errorFree = true := by
  rw [← Scopes.ordinary_any_iff] at h
  have hevents := Session.history_ordinary h fun task (_ : task ∈ tasks) =>
    Stmt.allNames_any task.program
  refine ⟨?_, ?_, ?_, ?_⟩
  · intro before later hsplit
    rw [hsplit] at hevents
    have hnow := h.replay (List.forall_mem_append.1 hevents).1
    refine ⟨(Scopes.ordinary_any_iff _).1 hnow, ?_⟩
    intro limit site scope e v after hv
    rw [← Tracing.plain_apply, ← Tracing.plain_expr] at hv
    have hrun := Invariant.keeps_expr (Invariant.ordinary_places anyName)
      (Invariant.calls_apply (Invariant.ordinary_entries anyName) limit) scope e false () site
      trivial (Expr.names_any e) _ hnow
    unfold Tracing.plain at hv
    generalize Tracing.expr _ site scope e _ = run at hrun hv
    cases hrun with
    | done _ x s es _ _ hx =>
      cases hv
      exact (Invariant.ordinary_value.1 hx).errorFree
    | _ => cases hv
  · intro scope name v hbound
    exact (Value.ordinary_any_iff v).1 (hevents _ hbound)
  · intro scope v hleft
    exact Value.Yielded.errorFree (hevents _ hleft)
  · intro last hlast
    have hscopes : last.scopes.Ordinary anyName := replay_history hlast ▸ h.replay hevents
    refine ⟨(Scopes.ordinary_any_iff _).1 hscopes, ?_⟩
    intro limit p scope reply after hafter
    obtain ⟨hkept, hvalue, _⟩ :=
      Session.evaluate_ordinary hscopes (Stmt.allNames_any p) hafter
    exact ⟨(Scopes.ordinary_any_iff _).1 hkept, fun v hv => (hvalue v hv).errorFree⟩

/-- A call that yields a wrapped value, so that the `let` around it binds nothing, and
then one that fails after its parameter has been bound to a function. -/
theorem wrapped_value_not_bound :
    let body : Block := [.ret (some (.cond (.bool true) [.ret (some (.int 5))] none))]
    let negation : Block := [.expr (.prefixOp .minus (.bool true))]
    let f : Closure := ⟨[], body, 0, ⟨1, [0, 1, 0, 0]⟩⟩
    let first : Task := ⟨1, [.bind "y" (.call (.fn [] body) [])], 0⟩
    let second : Task := ⟨1, [.expr (.call (.fn ["x"] negation) [.fn [] body])], 0⟩
    let session : Session := Session.empty.root.2
    let before : List Event := [.created 0 ⟨0, [0, 0, 0]⟩ [] body, .entered 1 0,
      .returning (.int 5), .returning (.returned (.int 5)), .left 1 (.ok (.returned (.int 5))),
      .created 0 ⟨1, [0, 0, 0]⟩ ["x"] negation, .created 0 f.origin [] body,
      .entered 2 0, .bound 2 "x" (.function f)]
    let later : List Event := [.left 2 (.error (.unknownPrefix .minus "BOOLEAN"))]
    session.scopes.BindPlain ∧ session.history [first, second] = before ++ later ∧
      (replay before session.scopes).BindPlain ∧ (Value.function f).isPlain = true ∧
      (Value.returned (.int 5)).errorFree = true ∧
      ∃ last, session.complete [first, second] = some last ∧ last.scopes.BindPlain := by
  intro body negation f first second session before later
  have hroot : session.scopes.BindPlain := by
    rintro i scope name v hscope hv
    rcases create_cases hscope with hold | ⟨_, rfl⟩
    · cases hold
    · cases hv
  have hhistory : session.history [first, second] = before ++ later := rfl
  obtain ⟨hmoments, hbound, hleft, hlast⟩ := plain_bindings_kept hroot [first, second]
  refine ⟨hroot, hhistory, (hmoments before later hhistory).1, ?_, ?_, _, rfl, (hlast _ rfl).1⟩
  · exact hbound 2 "x" (.function f) (by rw [hhistory]; simp [before])
  · exact hleft 1 (.returned (.int 5)) (by rw [hhistory]; simp [before])

end Monkey
