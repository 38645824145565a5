import Monkey.Proofs.History

/-!
# What an evaluation leaves alone

Of the scopes that are there when an evaluation begins, it binds names only in
the one it takes place in, and a call binds in none of them. The scope of a call
that has ended is left alone for the rest of the session.
-/

set_option autoImplicit false

namespace Monkey

def Scopes.Untouched (before after : Scopes) : Prop :=
  ∀ i < before.size, after[i]? = before[i]?

/-- Of the scopes that were there before, only `scope` may bind other values, and
none has another scope around it. -/
structure Scopes.Framed (scope : ScopeId) (before after : Scopes) : Prop where
  store : ∀ i < before.size, i ≠ scope → after[i]? = before[i]?
  outer : ∀ i < before.size, (after[i]?).map Scope.outer = (before[i]?).map Scope.outer

namespace Tracing

theorem inOrder_untouched {α : Type} {m : Tracing α} (h : InOrder [] m) {s after : Scopes}
    (hafter : (m.plain s).scopes? = some after) : s.Untouched after := by
  intro i hi
  obtain ⟨a, hfollow, _, hend⟩ := h s
  obtain ⟨hreplay, _⟩ := hend after hafter
  rw [← hreplay]
  exact (follow_idle hfollow rfl ⟨hi, by simp⟩).2

theorem inOrder_framed {α : Type} {m : Tracing α} {scope : ScopeId} (h : InOrder [scope] m)
    {s after : Scopes} (hafter : (m.plain s).scopes? = some after) : s.Framed scope after := by
  obtain ⟨a, hfollow, _, hend⟩ := h s
  obtain ⟨hreplay, _⟩ := hend after hafter
  rw [← hreplay]
  constructor
  · intro i hi hne
    exact (follow_idle hfollow rfl ⟨hi, by simpa using hne⟩).2
  · exact fun i hi => replay_outer _ s hi

end Tracing

structure Task where
  limit : Nat
  program : Program
  scope : ScopeId

namespace Session

def run (session : Session) (task : Task) : Run (Option Value) :=
  Tracing.program task.limit task.program session.programs task.scope session.scopes

theorem run_outcome (session : Session) (task : Task) :
    (session.run task).outcome =
      task.program.eval task.limit session.programs task.scope session.scopes :=
  congrFun (Tracing.plain_program task.limit task.program session.programs task.scope) _

def complete (session : Session) : List Task → Option Session
  | [] => some session
  | task :: rest =>
    match session.evaluate task.limit task.program task.scope with
    | some (_, later) => complete later rest
    | none => none

/-- What happens during some programs, up to the first that is cut off. -/
def history (session : Session) : List Task → List Event
  | [] => []
  | task :: rest =>
    (session.run task).events ++
      match session.evaluate task.limit task.program task.scope with
      | some (_, later) => history later rest
      | none => []

end Session

theorem inOrder_run (session : Session) (task : Task) :
    ∃ a, follow? (session.run task).events ⟨[task.scope], session.scopes.size⟩ = some a ∧
      [task.scope] <:+ a.active := by
  obtain ⟨a, hfollow, hactive, _⟩ :=
    Tracing.inOrder_program task.limit task.program session.programs task.scope session.scopes
  exact ⟨a, hfollow, hactive⟩

theorem evaluate_run {session later : Session} {task : Task} {reply : Reply}
    (h : session.evaluate task.limit task.program task.scope = some (reply, later)) :
    replay (session.run task).events session.scopes = later.scopes ∧
      follow? (session.run task).events ⟨[task.scope], session.scopes.size⟩ =
        some ⟨[task.scope], later.scopes.size⟩ := by
  obtain ⟨a, hfollow, _, hend⟩ :=
    Tracing.inOrder_program task.limit task.program session.programs task.scope session.scopes
  have hleft : (session.run task).outcome.scopes? = some later.scopes := by
    rw [Session.run_outcome]
    exact Session.evaluate_scopes h
  obtain ⟨hreplay, rfl⟩ := hend _ hleft
  exact ⟨hreplay, hfollow⟩

theorem replay_history {session later : Session} {tasks : List Task}
    (h : session.complete tasks = some later) :
    replay (session.history tasks) session.scopes = later.scopes := by
  induction tasks generalizing session with
  | nil =>
    cases h
    rfl
  | cons task rest ih =>
    simp only [Session.complete] at h
    simp only [Session.history]
    cases hrun : session.evaluate task.limit task.program task.scope with
    | none =>
      rw [hrun] at h
      cases h
    | some made =>
      obtain ⟨reply, middle⟩ := made
      rw [hrun] at h
      rw [replay_append, (evaluate_run hrun).1]
      exact ih h

theorem follow_prefix {es fs : List Event} {a b : Activity}
    (h : follow? (es ++ fs) a = some b) :
    ∃ c, follow? es a = some c ∧ follow? fs c = some b := by
  rw [follow_append] at h
  exact Option.bind_eq_some_iff.1 h

theorem rest_idle {session : Session} {task : Task} {tasks : List Task} {i : ScopeId}
    {s : Scopes} (hs : replay (session.run task).events session.scopes = s) (hi : i < s.size)
    (hidle : ∀ (next : Session) (now later : List Event), i < next.scopes.size →
      next.history tasks = now ++ later → (replay now next.scopes)[i]? = next.scopes[i]?)
    {now later : List Event}
    (h : (match session.evaluate task.limit task.program task.scope with
      | some (_, next) => next.history tasks
      | none => []) = now ++ later) :
    (replay now s)[i]? = s[i]? := by
  cases hrun : session.evaluate task.limit task.program task.scope with
  | none =>
    rw [hrun] at h
    rw [(List.append_eq_nil_iff.1 h.symm).1]
    rfl
  | some made =>
    obtain ⟨reply, next⟩ := made
    rw [hrun] at h
    obtain rfl : s = next.scopes := hs.symm.trans (evaluate_run hrun).1
    exact hidle next _ _ hi h

theorem history_idle {session : Session} {tasks : List Task} {i : ScopeId}
    (hi : i < session.scopes.size) (hscopes : ∀ task ∈ tasks, i ≠ task.scope)
    {now later : List Event} (h : session.history tasks = now ++ later) :
    (replay now session.scopes)[i]? = session.scopes[i]? := by
  induction tasks generalizing session now later with
  | nil =>
    have hnow : now = [] := (List.append_eq_nil_iff.1 h.symm).1
    rw [hnow]
    rfl
  | cons task rest ih =>
    have hidle : Activity.Idle ⟨[task.scope], session.scopes.size⟩ i :=
      ⟨hi, by simpa using hscopes task (by simp)⟩
    have hrest : ∀ t ∈ rest, i ≠ t.scope := fun t ht => hscopes t (by simp [ht])
    simp only [Session.history] at h
    obtain ⟨a, hfollow, _⟩ := inOrder_run session task
    rcases List.append_eq_append_iff.1 h with ⟨more, hnow, hlater⟩ | ⟨more, hevents, hlater⟩
    · -- the program has been evaluated, and the rest of `now` belongs to later ones
      obtain ⟨hlast, hsame⟩ := follow_idle hfollow rfl hidle
      have hthere : i < (replay (session.run task).events session.scopes).size := by
        rw [follow_size hfollow rfl]
        exact hlast.1
      have hmore := rest_idle rfl hthere (fun _ _ _ hi => ih hi hrest) hlater
      rw [hnow, replay_append, hmore, hsame]
    · rw [hevents] at hfollow
      obtain ⟨c, hprefix, _⟩ := follow_prefix hfollow
      exact (follow_idle hprefix rfl hidle).2

theorem split_at_cons {α : Type} {xs ys as cs : List α} {b : α} (h : xs ++ ys = as ++ b :: cs) :
    (∃ more, as = xs ++ more ∧ ys = more ++ b :: cs) ∨
      ∃ more, xs = as ++ b :: more ∧ cs = more ++ ys := by
  rcases List.append_eq_append_iff.1 h with ⟨more, has, hys⟩ | ⟨more, hxs, hcs⟩
  · exact .inl ⟨more, has, hys⟩
  · cases more with
    | nil => exact .inl ⟨[], by simpa using hxs.symm, hcs.symm⟩
    | cons c more =>
      cases hcs
      exact .inr ⟨more, hxs, rfl⟩

theorem left_new {base : ScopeId} {s : Scopes} (hbase : base < s.size) {before more : List Event}
    {scope : ScopeId} {result : Except EvalError Value} {a : Activity}
    (h : follow? (before ++ .left scope result :: more) ⟨[base], s.size⟩ = some a)
    (hkept : [base] <:+ a.active) :
    s.size ≤ scope ∧ ∃ d, follow? more d = some a ∧ d.Idle scope ∧
      (replay before s).size = d.count := by
  obtain ⟨c, hbegin, hend⟩ := follow_prefix h
  obtain ⟨d, hleft, hmore⟩ := Option.bind_eq_some_iff.1 hend
  have hordered : Activity.Ordered ⟨[base], s.size⟩ := ⟨by simp, by simpa using hbase⟩
  have hidle := left_idle hleft (follow_ordered hbegin hordered)
  have hsize : (replay before s).size = d.count := event_size hleft (follow_size hbegin rfl)
  refine ⟨?_, d, hmore, hidle, hsize⟩
  have hused : scope ∈ c.active := by
    rcases follow_cases hleft with ⟨_, heq, _⟩ | ⟨_, _, _, _, heq, _⟩ |
      ⟨_, _, _, heq, hactive, _⟩ | ⟨heq, _⟩ <;> cases heq
    simp [hactive]
  rcases (follow_count hbegin).2 scope hused with hmem | hge
  · -- the scope of the program itself stays in use
    have hsame : scope = base := by simpa using hmem
    subst hsame
    exact absurd (hkept.mem (by simp)) (follow_idle hmore hsize hidle).1.2
  · exact hge

/-- The scope of a call that has ended is a new one, and it stays as the call has
left it, through the rest of the program and through all later ones. -/
theorem history_left {session : Session} {tasks : List Task} {count : Nat}
    (hcount : count ≤ session.scopes.size) (hscopes : ∀ task ∈ tasks, task.scope < count)
    {before now later : List Event} {scope : ScopeId} {result : Except EvalError Value}
    (h : session.history tasks = before ++ .left scope result :: (now ++ later)) :
    count ≤ scope ∧ (replay (before ++ .left scope result :: now) session.scopes)[scope]? =
      (replay before session.scopes)[scope]? := by
  induction tasks generalizing session before with
  | nil => simp [Session.history] at h
  | cons task rest ih =>
    have hrest : ∀ t ∈ rest, t.scope < count := fun t ht => hscopes t (by simp [ht])
    simp only [Session.history] at h
    rcases split_at_cons h with ⟨more, rfl, hlater⟩ | ⟨more, hevents, hafter⟩
    · -- the call belongs to a later program
      cases hrun : session.evaluate task.limit task.program task.scope with
      | none =>
        rw [hrun] at hlater
        simp at hlater
      | some made =>
        obtain ⟨reply, middle⟩ := made
        rw [hrun] at hlater
        obtain ⟨hreplay, hwhole⟩ := evaluate_run hrun
        have hlater := ih (Nat.le_trans hcount (follow_count hwhole).1) hrest hlater
        rwa [List.append_assoc, replay_append, hreplay, replay_append _ more, hreplay]
    · -- the call belongs to this program
      obtain ⟨a, hfollow, hkept⟩ := inOrder_run session task
      have hbase : task.scope < session.scopes.size :=
        Nat.lt_of_lt_of_le (hscopes task (by simp)) hcount
      rw [hevents] at hfollow
      obtain ⟨hnew, d, hmore, hidle, hsize⟩ := left_new hbase hfollow hkept
      have hcalled : count ≤ scope := Nat.le_trans hcount hnew
      refine ⟨hcalled, ?_⟩
      rw [replay_append]
      change (replay now (replay before session.scopes))[scope]? = _
      rcases List.append_eq_append_iff.1 hafter with ⟨part, rfl, _⟩ | ⟨part, rfl, hlater⟩
      · obtain ⟨e, hnow, _⟩ := follow_prefix hmore
        exact (follow_idle hnow hsize hidle).2
      · obtain ⟨hended, hsame⟩ := follow_idle hmore hsize hidle
        have hevery : replay (session.run task).events session.scopes =
            replay more (replay before session.scopes) := by
          rw [hevents, replay_append]
          rfl
        have hthere : scope < (replay more (replay before session.scopes)).size := by
          rw [follow_size hmore hsize]
          exact hended.1
        rw [replay_append, ← hsame]
        have hlast : ∀ t ∈ rest, scope ≠ t.scope :=
          fun t ht => Nat.ne_of_gt (Nat.lt_of_lt_of_le (hrest t ht) hcalled)
        exact rest_idle hevery hthere (fun _ _ _ hi => history_idle hi hlast) hlater

theorem eval_framed {limit : Nat} {site : Site} {scope : ScopeId} {e : Expr} {s after : Scopes}
    (h : (e.eval (Closure.apply limit) site scope s).scopes? = some after) :
    s.Framed scope after := by
  rw [← Tracing.plain_apply, ← Tracing.plain_expr] at h
  exact Tracing.inOrder_framed (Tracing.inOrder_expr limit scope [scope] e site (.inl rfl)) h

theorem stmt_framed {limit : Nat} {site : Site} {scope : ScopeId} {t : Stmt} {s after : Scopes}
    (h : (t.eval (Closure.apply limit) site scope s).scopes? = some after) :
    s.Framed scope after := by
  rw [← Tracing.plain_apply, ← Tracing.plain_stmt] at h
  exact Tracing.inOrder_framed (Tracing.inOrder_stmt limit scope t site) h

theorem program_framed {limit number : Nat} {scope : ScopeId} {p : Program} {s after : Scopes}
    (h : (p.eval limit number scope s).scopes? = some after) : s.Framed scope after := by
  rw [← Tracing.plain_program] at h
  exact Tracing.inOrder_framed (Tracing.inOrder_program limit p number scope) h

theorem apply_untouched {limit : Nat} {closure : Closure} {arguments : List Value}
    {s after : Scopes} (h : (Closure.apply limit closure arguments s).scopes? = some after) :
    s.Untouched after := by
  rw [← Tracing.plain_apply] at h
  exact Tracing.inOrder_untouched (Tracing.inOrder_apply limit closure arguments []) h

/-- A program, a statement and an expression change, of all scopes that are there
before, only the bindings of the one they are evaluated in. A call with evaluated
arguments changes none of them. After a call has ended, its scope stays as it is
for the rest of the session, whatever else the session evaluates in its scopes. -/
theorem evaluation_frame :
    (∀ (limit number : Nat) (scope : ScopeId) (p : Program) (s after : Scopes),
      (p.eval limit number scope s).scopes? = some after → s.Framed scope after) ∧
    (∀ (limit : Nat) (site : Site) (scope : ScopeId) (t : Stmt) (s after : Scopes),
      (t.eval (Closure.apply limit) site scope s).scopes? = some after → s.Framed scope after) ∧
    (∀ (limit : Nat) (site : Site) (scope : ScopeId) (e : Expr) (s after : Scopes),
      (e.eval (Closure.apply limit) site scope s).scopes? = some after → s.Framed scope after) ∧
    (∀ (limit : Nat) (closure : Closure) (arguments : List Value) (s after : Scopes),
      (Closure.apply limit closure arguments s).scopes? = some after → s.Untouched after) ∧
    ∀ (session : Session) (tasks : List Task),
      (∀ task ∈ tasks, task.scope < session.scopes.size) →
      (∀ later, session.complete tasks = some later →
        replay (session.history tasks) session.scopes = later.scopes) ∧
      ∀ (before now later : List Event) (scope : ScopeId) (result : Except EvalError Value),
        session.history tasks = before ++ .left scope result :: (now ++ later) →
        session.scopes.size ≤ scope ∧
          (replay (before ++ .left scope result :: now) session.scopes)[scope]? =
            (replay before session.scopes)[scope]? := by
  refine ⟨fun _ _ _ _ _ _ h => program_framed h, fun _ _ _ _ _ _ h => stmt_framed h,
    fun _ _ _ _ _ _ h => eval_framed h, fun _ _ _ _ _ h => apply_untouched h, ?_⟩
  intro session tasks hscopes
  refine ⟨fun later h => replay_history h, ?_⟩
  intro before now later scope result h
  exact history_left (Nat.le_refl _) hscopes h

/-- A function that binds a name in its own scope, called in one program and
followed by a second program that binds the same name outside. -/
theorem ended_call_kept :
    let body : Block := [.bind "y" (.int 7)]
    let f : Closure := ⟨["x"], body, 0, ⟨0, [0, 0, 0]⟩⟩
    let root : Scopes := #[⟨none, []⟩]
    let called : Scopes := #[⟨none, []⟩, ⟨some 0, [("y", .int 7), ("x", .int 5)]⟩]
    let first : Task := ⟨1, [.expr (.call (.fn ["x"] body) [.int 5])], 0⟩
    let second : Task := ⟨1, [.bind "y" (.int 1)], 0⟩
    let before : List Event := [.created 0 f.origin ["x"] body, .entered 1 0,
      .bound 1 "x" (.int 5), .bound 1 "y" (.int 7)]
    let now : List Event := [.bound 0 "y" (.int 1)]
    (Closure.apply 1 f [.int 5] root).scopes? = some called ∧ root.Untouched called ∧
      Session.empty.root.2.history [first, second] = before ++ .left 1 (.ok .null) :: (now ++ []) ∧
      (replay (before ++ .left 1 (.ok .null) :: now) root)[1]? = (replay before root)[1]? := by
  intro body f root called first second before now
  have hcall : (Closure.apply 1 f [.int 5] root).scopes? = some called := rfl
  have hhistory : Session.empty.root.2.history [first, second] =
      before ++ .left 1 (.ok .null) :: (now ++ []) := rfl
  have hscopes : ∀ task ∈ [first, second], task.scope < Session.empty.root.2.scopes.size := by
    decide
  have huntouched := evaluation_frame.2.2.2.1 1 f [.int 5] root called hcall
  have hsession := evaluation_frame.2.2.2.2 Session.empty.root.2 [first, second] hscopes
  exact ⟨hcall, huntouched, hhistory, (hsession.2 _ _ _ _ _ hhistory).2⟩

end Monkey
