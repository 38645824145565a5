import Monkey.Session
import Monkey.Proofs.Invariants

/-!
# The history of a session

What is written down about an evaluation is enough to rebuild the scopes, and it
is in order: a name is bound only in the scope of the innermost active call, a
call opens the next new scope, and calls end in the reverse order of their
beginning. So a scope whose call has ended is never bound in again, and a scope
that was there before changes only if the evaluation takes place in it.
-/

set_option autoImplicit false

namespace Monkey

def Outcome.scopes? {α : Type} : Outcome α → Option Scopes
  | done _ scopes => some scopes
  | failed _ scopes => some scopes
  | exhausted => none

theorem Session.evaluate_scopes {session later : Session} {limit : Nat} {p : Program}
    {scope : ScopeId} {reply : Reply} (h : session.evaluate limit p scope = some (reply, later)) :
    (p.eval limit session.programs scope session.scopes).scopes? = some later.scopes := by
  unfold Session.evaluate at h
  split at h
  · next value scopes heq =>
    cases h
    rw [heq]
    rfl
  · next error scopes heq =>
    cases h
    rw [heq]
    rfl
  · cases h

def Event.replay : Event → Scopes → Scopes
  | entered _ outer, scopes => scopes.create (some outer)
  | bound scope name value, scopes => scopes.set scope name value
  | left _ _, scopes => scopes
  | returning _, scopes => scopes
  | created _ _ _ _, scopes => scopes

def replay : List Event → Scopes → Scopes
  | [], scopes => scopes
  | event :: rest, scopes => replay rest (event.replay scopes)

/-- The scopes that are in use, innermost first, and how many scopes there are. -/
structure Activity where
  active : List ScopeId
  count : Nat

def Event.follow? : Event → Activity → Option Activity
  | entered scope _, ⟨active, count⟩ =>
    if scope = count then some ⟨scope :: active, count + 1⟩ else none
  | bound scope _ _, activity => if activity.active.head? = some scope then some activity else none
  | left scope _, ⟨active, count⟩ =>
    if active.head? = some scope then some ⟨active.tail, count⟩ else none
  | returning _, activity => some activity
  | created _ _ _ _, activity => some activity

def follow? : List Event → Activity → Option Activity
  | [], activity => some activity
  | event :: rest, activity => (event.follow? activity).bind (follow? rest)

theorem replay_append (es fs : List Event) (s : Scopes) :
    replay (es ++ fs) s = replay fs (replay es s) := by
  induction es generalizing s with
  | nil => rfl
  | cons event es ih => exact ih _

theorem follow_append (es fs : List Event) (a : Activity) :
    follow? (es ++ fs) a = (follow? es a).bind (follow? fs) := by
  induction es generalizing a with
  | nil => rfl
  | cons event es ih =>
    simp only [List.cons_append, follow?]
    cases event.follow? a with
    | none => rfl
    | some b => exact ih b

/-! ### Scopes that are not in use -/

theorem size_set (s : Scopes) (i : ScopeId) (name : String) (v : Value) :
    (s.set i name v).size = s.size := by
  simp [Scopes.set]

theorem set_self {s : Scopes} {i : ScopeId} {scope : Scope} (name : String) (v : Value)
    (h : s[i]? = some scope) : (s.set i name v)[i]? = some (scope.set name v) := by
  simp [Scopes.set, Array.getElem?_modify, h]

theorem set_other (s : Scopes) {i j : ScopeId} (name : String) (v : Value) (h : j ≠ i) :
    (s.set i name v)[j]? = s[j]? := by
  simp [Scopes.set, Array.getElem?_modify, Ne.symm h]

theorem size_create (s : Scopes) (outer : Option ScopeId) :
    (s.create outer).size = s.size + 1 := by
  simp [Scopes.create]

theorem create_self (s : Scopes) (outer : Option ScopeId) :
    (s.create outer)[s.size]? = some ⟨outer, []⟩ := by
  simp [Scopes.create]

theorem create_other (s : Scopes) (outer : Option ScopeId) {i : ScopeId} (h : i < s.size) :
    (s.create outer)[i]? = s[i]? := by
  simp [Scopes.create, Array.getElem?_push, Nat.ne_of_lt h]

theorem set_cases {s : Scopes} {i j : ScopeId} {name : String} {v : Value} {scope : Scope}
    (h : (s.set i name v)[j]? = some scope) :
    ∃ old : Scope, s[j]? = some old ∧ (scope = old ∨ scope = old.set name v) := by
  by_cases hij : j = i
  · subst hij
    simp only [Scopes.set, Array.getElem?_modify, if_true, Option.map_eq_some_iff] at h
    obtain ⟨old, hold, rfl⟩ := h
    exact ⟨old, hold, .inr rfl⟩
  · rw [set_other s name v hij] at h
    exact ⟨scope, h, .inl rfl⟩

theorem create_cases {s : Scopes} {outer : Option ScopeId} {j : ScopeId} {scope : Scope}
    (h : (s.create outer)[j]? = some scope) :
    s[j]? = some scope ∨ (j = s.size ∧ scope = ⟨outer, []⟩) := by
  rw [Scopes.create, Array.getElem?_push] at h
  by_cases hnew : j = s.size
  · rw [if_pos hnew] at h
    cases h
    exact .inr ⟨hnew, rfl⟩
  · rw [if_neg hnew] at h
    exact .inl h

def Event.isPassive : Event → Bool
  | returning _ => true
  | created _ _ _ _ => true
  | _ => false

theorem Event.replay_passive {event : Event} (h : event.isPassive = true) (s : Scopes) :
    event.replay s = s := by
  cases event with
  | returning v => rfl
  | created scope node params body => rfl
  | _ => cases h

theorem follow_cases {event : Event} {a b : Activity} (h : event.follow? a = some b) :
    (∃ outer, event = .entered a.count outer ∧ b = ⟨a.count :: a.active, a.count + 1⟩) ∨
    (∃ scope rest name v, event = .bound scope name v ∧ a.active = scope :: rest ∧ b = a) ∨
    (∃ scope rest result, event = .left scope result ∧ a.active = scope :: rest ∧
      b = ⟨rest, a.count⟩) ∨
    event.isPassive = true ∧ b = a := by
  obtain ⟨active, count⟩ := a
  cases event with
  | entered scope outer =>
    simp only [Event.follow?] at h
    split at h
    · next hscope =>
      subst hscope
      cases h
      exact .inl ⟨outer, rfl, rfl⟩
    · cases h
  | bound scope name v =>
    simp only [Event.follow?] at h
    split at h
    · next hhead =>
      cases h
      obtain ⟨rest, hactive⟩ := List.head?_eq_some_iff.1 hhead
      exact .inr (.inl ⟨scope, rest, name, v, rfl, hactive, rfl⟩)
    · cases h
  | left scope result =>
    simp only [Event.follow?] at h
    split at h
    · next hhead =>
      cases h
      obtain ⟨rest, rfl⟩ := List.head?_eq_some_iff.1 hhead
      exact .inr (.inr (.inl ⟨scope, rest, result, rfl, rfl, rfl⟩))
    · cases h
  | returning v =>
    cases h
    exact .inr (.inr (.inr ⟨rfl, rfl⟩))
  | created scope node params body =>
    cases h
    exact .inr (.inr (.inr ⟨rfl, rfl⟩))

/-- The scope is there and its call, if it was opened by one, has ended. -/
def Activity.Idle (activity : Activity) (i : ScopeId) : Prop :=
  i < activity.count ∧ i ∉ activity.active

theorem event_size {event : Event} {a b : Activity} (h : event.follow? a = some b) {s : Scopes}
    (hs : s.size = a.count) : (event.replay s).size = b.count := by
  rcases follow_cases h with ⟨outer, rfl, rfl⟩ | ⟨scope, rest, name, v, rfl, _, rfl⟩ |
    ⟨scope, rest, result, rfl, _, rfl⟩ | ⟨hpassive, rfl⟩
  · simp [Event.replay, size_create, hs]
  · simp [Event.replay, size_set, hs]
  · exact hs
  · rw [Event.replay_passive hpassive]
    exact hs

theorem event_idle {event : Event} {a b : Activity} (h : event.follow? a = some b) {s : Scopes}
    (hs : s.size = a.count) {i : ScopeId} (hi : a.Idle i) :
    b.Idle i ∧ (event.replay s)[i]? = s[i]? := by
  obtain ⟨hlt, hnot⟩ := hi
  rcases follow_cases h with ⟨outer, rfl, rfl⟩ | ⟨scope, rest, name, v, rfl, hactive, rfl⟩ |
    ⟨scope, rest, result, rfl, hactive, rfl⟩ | ⟨hpassive, rfl⟩
  · refine ⟨⟨Nat.lt_succ_of_lt hlt, ?_⟩, create_other s _ (hs ▸ hlt)⟩
    rw [List.mem_cons]
    rintro (rfl | hmem)
    · exact Nat.lt_irrefl _ hlt
    · exact hnot hmem
  · have hne : i ≠ scope := by
      rintro rfl
      simp [hactive] at hnot
    exact ⟨⟨hlt, hnot⟩, set_other s name v hne⟩
  · refine ⟨⟨hlt, fun hmem => hnot ?_⟩, rfl⟩
    rw [hactive]
    exact List.mem_cons_of_mem _ hmem
  · exact ⟨⟨hlt, hnot⟩, by rw [Event.replay_passive hpassive]⟩

theorem follow_size {es : List Event} {a b : Activity} (h : follow? es a = some b) {s : Scopes}
    (hs : s.size = a.count) : (replay es s).size = b.count := by
  induction es generalizing a s with
  | nil =>
    cases h
    exact hs
  | cons event es ih =>
    obtain ⟨c, hevent, hrest⟩ := Option.bind_eq_some_iff.1 h
    exact ih hrest (event_size hevent hs)

theorem follow_idle {es : List Event} {a b : Activity} (h : follow? es a = some b) {s : Scopes}
    (hs : s.size = a.count) {i : ScopeId} (hi : a.Idle i) :
    b.Idle i ∧ (replay es s)[i]? = s[i]? := by
  induction es generalizing a s with
  | nil =>
    cases h
    exact ⟨hi, rfl⟩
  | cons event es ih =>
    obtain ⟨c, hevent, hrest⟩ := Option.bind_eq_some_iff.1 h
    obtain ⟨hidle, hsame⟩ := event_idle hevent hs hi
    obtain ⟨hlast, hkept⟩ := ih hrest (event_size hevent hs) hidle
    exact ⟨hlast, hkept.trans hsame⟩

theorem event_count {event : Event} {a b : Activity} (h : event.follow? a = some b) :
    a.count ≤ b.count ∧ ∀ i ∈ b.active, i ∈ a.active ∨ a.count ≤ i := by
  rcases follow_cases h with ⟨outer, rfl, rfl⟩ | ⟨scope, rest, name, v, rfl, hactive, rfl⟩ |
    ⟨scope, rest, result, rfl, hactive, rfl⟩ | ⟨_, rfl⟩
  · refine ⟨Nat.le_succ _, fun i hi => ?_⟩
    rcases List.mem_cons.1 hi with rfl | hi
    · exact .inr (Nat.le_refl _)
    · exact .inl hi
  · exact ⟨Nat.le_refl _, fun i hi => .inl hi⟩
  · exact ⟨Nat.le_refl _, fun i hi => .inl (by rw [hactive]; exact List.mem_cons_of_mem _ hi)⟩
  · exact ⟨Nat.le_refl _, fun i hi => .inl hi⟩

theorem follow_count {es : List Event} {a b : Activity} (h : follow? es a = some b) :
    a.count ≤ b.count ∧ ∀ i ∈ b.active, i ∈ a.active ∨ a.count ≤ i := by
  induction es generalizing a with
  | nil =>
    cases h
    exact ⟨Nat.le_refl _, fun i hi => .inl hi⟩
  | cons event es ih =>
    obtain ⟨c, hevent, hrest⟩ := Option.bind_eq_some_iff.1 h
    obtain ⟨hle, hactive⟩ := event_count hevent
    obtain ⟨hle', hactive'⟩ := ih hrest
    refine ⟨Nat.le_trans hle hle', fun i hi => ?_⟩
    rcases hactive' i hi with hmem | hge
    · exact hactive i hmem
    · exact .inr (Nat.le_trans hle hge)

structure Activity.Ordered (activity : Activity) : Prop where
  nodup : activity.active.Nodup
  exist : ∀ i ∈ activity.active, i < activity.count

theorem event_ordered {event : Event} {a b : Activity} (h : event.follow? a = some b)
    (ha : a.Ordered) : b.Ordered := by
  rcases follow_cases h with ⟨outer, rfl, rfl⟩ | ⟨scope, rest, name, v, rfl, _, rfl⟩ |
    ⟨scope, rest, result, rfl, hactive, rfl⟩ | ⟨_, rfl⟩
  · constructor
    · rw [List.nodup_cons]
      exact ⟨fun hmem => Nat.lt_irrefl _ (ha.exist _ hmem), ha.nodup⟩
    · intro i hi
      rcases List.mem_cons.1 hi with rfl | hi
      · exact Nat.lt_succ_self _
      · exact Nat.lt_succ_of_lt (ha.exist i hi)
  · exact ha
  · obtain ⟨hnodup, hexist⟩ := ha
    rw [hactive] at hnodup hexist
    exact ⟨(List.nodup_cons.1 hnodup).2, fun i hi => hexist i (List.mem_cons_of_mem _ hi)⟩
  · exact ha

theorem follow_ordered {es : List Event} {a b : Activity} (h : follow? es a = some b)
    (ha : a.Ordered) : b.Ordered := by
  induction es generalizing a with
  | nil =>
    cases h
    exact ha
  | cons event es ih =>
    obtain ⟨c, hevent, hrest⟩ := Option.bind_eq_some_iff.1 h
    exact ih hrest (event_ordered hevent ha)

theorem left_idle {scope : ScopeId} {result : Except EvalError Value} {a b : Activity}
    (h : (Event.left scope result).follow? a = some b) (ha : a.Ordered) : b.Idle scope := by
  rcases follow_cases h with ⟨outer, heq, _⟩ | ⟨i, rest, name, v, heq, _⟩ |
    ⟨i, rest, r, heq, hactive, rfl⟩ | ⟨heq, _⟩
  · cases heq
  · cases heq
  · cases heq
    obtain ⟨hnodup, hexist⟩ := ha
    rw [hactive] at hnodup hexist
    exact ⟨hexist scope (by simp), (List.nodup_cons.1 hnodup).1⟩
  · cases heq

/-! ### Outer scopes -/

theorem event_outer (event : Event) (s : Scopes) {i : ScopeId} (hi : i < s.size) :
    ((event.replay s)[i]?).map Scope.outer = (s[i]?).map Scope.outer := by
  cases event with
  | entered scope outer => rw [Event.replay, create_other s _ hi]
  | bound scope name v =>
    by_cases h : i = scope
    · subst h
      simp [Event.replay, Scopes.set, Array.getElem?_modify, Function.comp_def, Scope.set]
    · rw [Event.replay, set_other s name v h]
  | _ => rfl

theorem size_le_event (event : Event) (s : Scopes) : s.size ≤ (event.replay s).size := by
  cases event with
  | entered scope outer => simp [Event.replay, size_create]
  | bound scope name v => simp [Event.replay, size_set]
  | _ => exact Nat.le_refl _

theorem replay_outer (es : List Event) (s : Scopes) {i : ScopeId} (hi : i < s.size) :
    ((replay es s)[i]?).map Scope.outer = (s[i]?).map Scope.outer := by
  induction es generalizing s with
  | nil => rfl
  | cons event es ih =>
    exact (ih _ (Nat.lt_of_lt_of_le hi (size_le_event event s))).trans (event_outer event s hi)

/-! ### Evaluations are in order -/

mutual

/-- No `let` occurs, unless in the body of a function literal. -/
def Expr.letFree : Expr → Bool
  | .ident _ => true
  | .int _ => true
  | .bool _ => true
  | .prefixOp _ e => e.letFree
  | .infixOp _ e f => e.letFree && f.letFree
  | .cond c a none => c.letFree && Stmt.allLetFree a
  | .cond c a (some b) => c.letFree && Stmt.allLetFree a && Stmt.allLetFree b
  | .fn _ _ => true
  | .call f es => f.letFree && Expr.allLetFree es

def Expr.allLetFree : List Expr → Bool
  | [] => true
  | e :: es => e.letFree && Expr.allLetFree es

def Stmt.letFree : Stmt → Bool
  | .bind _ _ => false
  | .ret none => true
  | .ret (some e) => e.letFree
  | .expr e => e.letFree
  | .block body => Stmt.allLetFree body

def Stmt.allLetFree : List Stmt → Bool
  | [] => true
  | s :: ss => s.letFree && Stmt.allLetFree ss

end

def letFreeCode (lets : Prop) : Code where
  expr := fun _ e => lets ∨ e.letFree = true
  exprs := fun _ es => lets ∨ Expr.allLetFree es = true
  stmt := fun _ s => lets ∨ s.letFree = true
  stmts := fun _ ss => lets ∨ Stmt.allLetFree ss = true
  prefixOp := id
  infixOp := by simp only [Expr.letFree, Bool.and_eq_true, or_and_left, imp_self, implies_true]
  cond := by simp only [Expr.letFree, Bool.and_eq_true, or_and_left, imp_self, implies_true]
  condElse := by
    simp only [Expr.letFree, Bool.and_eq_true, and_assoc, or_and_left, imp_self, implies_true]
  call := by simp only [Expr.letFree, Bool.and_eq_true, or_and_left, imp_self, implies_true]
  cons := by simp only [Expr.allLetFree, Bool.and_eq_true, or_and_left, imp_self, implies_true]
  bind := fun h => .inl (h.resolve_right Bool.false_ne_true)
  only := id
  block := id
  seq := by simp only [Stmt.allLetFree, Bool.and_eq_true, or_and_left, imp_self, implies_true]

namespace Invariant

/-- The scopes in use stay in use, no other one is in use at the end, and the events lead to
the scopes that are left. -/
def inOrder : Invariant (Activity × Scopes) where
  kept := fun w es u =>
    follow? es w.1 = some u.1 ∧ replay es w.2 = u.2 ∧ u.1.active = w.1.active
  cut := fun w es u => follow? es w.1 = some u.1 ∧ w.1.active <:+ u.1.active
  fits := fun w s => w.2 = s ∧ w.1.count = s.size
  ready := fun _ => True
  plain := fun _ _ => True
  out := fun _ _ _ => True
  bad := fun _ => True
  kept_nil := fun _ => ⟨rfl, rfl, rfl⟩
  kept_append := by
    rintro w u v es fs ⟨hfollow, hreplay, hactive⟩ ⟨hmore, hlast, hkept⟩
    refine ⟨?_, ?_, hkept.trans hactive⟩
    · rw [follow_append, hfollow]
      exact hmore
    · rw [replay_append, hreplay, hlast]
  cut_nil := fun _ => ⟨rfl, List.suffix_refl _⟩
  cut_append := by
    rintro w u v es fs ⟨hfollow, _, hactive⟩ ⟨hmore, hkept⟩
    rw [follow_append, hfollow]
    exact ⟨hmore, hactive ▸ hkept⟩
  plain_kept := fun _ _ => trivial
  atom := fun _ => trivial
  out_of_plain := fun _ _ => trivial
  typed := fun _ => trivial

theorem inOrder_binds {w : Activity × Scopes} {scope : ScopeId}
    (h : w.1.active.head? = some scope) : inOrder.Binds w scope := by
  obtain ⟨⟨active, count⟩, t⟩ := w
  rintro name v _ _ ⟨rfl, hsize⟩
  refine ⟨(⟨active, count⟩, t.set scope name v), ⟨?_, rfl, rfl⟩, ⟨rfl, ?_⟩, trivial⟩
  · change ((Event.bound scope name v).follow? ⟨active, count⟩).bind (follow? []) = _
    rw [Event.follow?, if_pos h]
    rfl
  · rw [size_set]
    exact hsize

/-- Names are bound in the innermost scope in use; where there is no `let`, any scope will do. -/
theorem inOrder_places (lets : Prop) :
    inOrder.Places (fun w scope => lets → w.1.active.head? = some scope)
      fun _ => letFreeCode lets where
  ready := fun _ => trivial
  later := fun h hkept _ hlets => by
    rw [hkept.2.2]
    exact h hlets
  operand := id
  lookup := fun _ _ _ => ⟨fun _ _ => trivial, trivial⟩
  binds := fun h hs => inOrder_binds (h (hs.resolve_right Bool.false_ne_true))
  literal := fun _ _ hfits => ⟨_, ⟨rfl, rfl, rfl⟩, hfits, trivial, trivial⟩
  returning := fun _ _ hfits => ⟨_, ⟨rfl, rfl, rfl⟩, hfits, trivial⟩

theorem inOrder_encloses (w : Activity × Scopes) (outer : ScopeId) :
    inOrder.Encloses w w.1.count outer
      (⟨w.1.count :: w.1.active, w.1.count + 1⟩, w.2.create (some outer)) := by
  obtain ⟨⟨active, count⟩, t⟩ := w
  have hbegin : ∀ events, follow? (.entered count outer :: events) ⟨active, count⟩ =
      follow? events ⟨count :: active, count + 1⟩ := by
    intro events
    simp [follow?, Event.follow?]
  have hended : ∀ {u : Activity × Scopes} {es : List Event} (result : Except EvalError Value),
      inOrder.kept (⟨count :: active, count + 1⟩, t.create (some outer)) es u →
      inOrder.kept (⟨active, count⟩, t) (.entered count outer :: (es ++ [.left count result]))
        (⟨active, u.1.count⟩, u.2) := by
    rintro ⟨⟨_, last⟩, s⟩ es result ⟨hfollow, hreplay, rfl⟩
    refine ⟨?_, ?_, rfl⟩
    · rw [hbegin, follow_append, hfollow]
      simp [follow?, Event.follow?]
    · rw [replay, replay_append]
      exact hreplay
  constructor
  · exact fun hkept hfits _ =>
      ⟨_, hended (.ok _) hkept, hfits, fun _ => value_of_plain trivial trivial⟩
  · exact fun hkept hfits _ _ => ⟨_, hended (.error _) hkept, hfits, trivial⟩
  · rintro u es ⟨hfollow, hactive⟩ _
    exact ⟨u, ⟨(hbegin es).trans hfollow, (List.suffix_cons _ _).trans hactive⟩, trivial⟩

theorem inOrder_entries :
    inOrder.Entries (fun w scope => True → w.1.active.head? = some scope)
      fun _ => letFreeCode True where
  toPlaces := inOrder_places True
  opened := by
    rintro w f _ _ _ ⟨rfl, hsize⟩
    refine ⟨(⟨w.1.count :: w.1.active, w.1.count + 1⟩, w.2.create (some f.scope)),
      fun _ => congrArg some hsize, ⟨rfl, ?_⟩, .inl trivial, fun _ _ => trivial, ?_⟩
    · rw [size_create, ← hsize]
    · rw [← hsize]
      exact inOrder_encloses w f.scope
  assigns := fun h => inOrder_binds (h trivial)

end Invariant

namespace Tracing

/-- These scopes stay in use all along and no other one is in use at the end, and
the record leads to the scopes that the computation leaves. -/
def InOrder {α : Type} (active : List ScopeId) (m : Tracing α) : Prop :=
  ∀ s : Scopes, ∃ a, follow? (m s).events ⟨active, s.size⟩ = some a ∧ active <:+ a.active ∧
    ∀ after, (m s).outcome.scopes? = some after →
      replay (m s).events s = after ∧ a = ⟨active, after.size⟩

theorem inOrder_end {active : List ScopeId} {s after : Scopes} {es : List Event}
    {u : Activity × Scopes} (hkept : Invariant.inOrder.kept (⟨active, s.size⟩, s) es u)
    (hfits : Invariant.inOrder.fits u after) :
    follow? es ⟨active, s.size⟩ = some ⟨active, after.size⟩ ∧ replay es s = after := by
  obtain ⟨⟨now, count⟩, t⟩ := u
  obtain ⟨hfollow, hreplay, hactive⟩ := hkept
  obtain ⟨ht, hcount⟩ := hfits
  obtain rfl : now = active := hactive
  obtain rfl : count = after.size := hcount
  exact ⟨hfollow, hreplay.trans ht⟩

theorem inOrder_of_keeps {α : Type} {active : List ScopeId} {m : Tracing α}
    {good : Activity × Scopes → α → Prop}
    (h : ∀ s : Scopes, Invariant.inOrder.Keeps (⟨active, s.size⟩, s) good m) :
    InOrder active m := by
  intro s
  have hrun := h s s ⟨rfl, rfl⟩
  generalize m s = run at hrun
  cases hrun with
  | done u x after es hkept hfits _ =>
    obtain ⟨hfollow, hreplay⟩ := inOrder_end hkept hfits
    refine ⟨_, hfollow, List.suffix_refl _, ?_⟩
    rintro _ ⟨⟩
    exact ⟨hreplay, rfl⟩
  | failed u e after es hkept hfits _ _ =>
    obtain ⟨hfollow, hreplay⟩ := inOrder_end hkept hfits
    refine ⟨_, hfollow, List.suffix_refl _, ?_⟩
    rintro _ ⟨⟩
    exact ⟨hreplay, rfl⟩
  | exhausted u es hcut _ =>
    refine ⟨u.1, hcut.1, hcut.2, ?_⟩
    rintro _ ⟨⟩

variable (limit : Nat)

theorem inOrder_calls : Invariant.inOrder.Calls (apply limit) :=
  Invariant.calls_apply Invariant.inOrder_entries limit

theorem inOrder_expr (scope : ScopeId) (active : List ScopeId) (e : Expr) (site : Site)
    (h : active.head? = some scope ∨ e.letFree = true) :
    InOrder active (expr (apply limit) site scope e) :=
  inOrder_of_keeps fun _ => Invariant.keeps_expr
    (Invariant.inOrder_places (active.head? = some scope)) (inOrder_calls limit) scope e false _
    site id h

theorem inOrder_stmt (scope : ScopeId) (s : Stmt) (site : Site) :
    InOrder [scope] (stmt (apply limit) site scope s) :=
  inOrder_of_keeps fun _ => Invariant.keeps_stmt (Invariant.inOrder_places True)
    (inOrder_calls limit) scope s false _ site (fun _ => rfl) (.inl trivial)

theorem inOrder_apply (closure : Closure) (arguments : List Value) (active : List ScopeId) :
    InOrder active (apply limit closure arguments) :=
  inOrder_of_keeps fun _ => inOrder_calls limit false _ closure arguments trivial trivial
    fun _ _ => trivial

theorem inOrder_program (p : Program) (number : Nat) (scope : ScopeId) :
    InOrder [scope] (program limit p number scope) :=
  inOrder_of_keeps fun _ => Invariant.keeps_program Invariant.inOrder_entries limit
    (fun _ => rfl) (.inl trivial)

end Tracing

end Monkey
