import Monkey.Proofs.Frame
import Monkey.Proofs.Renumbering

/-!
# The graph of scopes

Scopes are linked in two ways: to the scope around them, and through the
functions that they bind to the scopes which these capture. The second kind of
link may lead in circles, but the first always leads to an older scope, so that
looking a name up comes to an end. All links lead to scopes that are there. Later
on a scope may bind more names, but none fewer, and it stays where it is.
-/

set_option autoImplicit false

namespace Monkey

def Value.Linked (count : Nat) : Value → Prop
  | .function f => f.scope < count
  | .returned v => v.Linked count
  | _ => True

instance Value.decideLinked (count : Nat) : (v : Value) → Decidable (v.Linked count)
  | .function f => inferInstanceAs (Decidable (f.scope < count))
  | .returned v => Value.decideLinked count v
  | .error _ => .isTrue trivial
  | .int _ => .isTrue trivial
  | .bool _ => .isTrue trivial
  | .null => .isTrue trivial

structure Scopes.Linked (s : Scopes) : Prop where
  older : ∀ (i : ScopeId) (scope : Scope) (outer : ScopeId), s[i]? = some scope →
    scope.outer = some outer → outer < i
  captured : ∀ (i : ScopeId) (scope : Scope) (name : String) (v : Value), s[i]? = some scope →
    scope.get name = some v → v.Linked s.size

structure Renumbering.Fixes (ρ : Renumbering) (count : Nat) : Prop where
  number : ∀ i < count, ρ.number i = i
  place : ∀ a, ρ.place a a

def Renumbering.self : Renumbering where
  number := id
  place := fun a b => a = b
  increasing := fun h => h
  child := fun _ h => by rw [h]

theorem Renumbering.self_fixes (count : Nat) : Renumbering.self.Fixes count :=
  ⟨fun _ _ => rfl, fun _ => rfl⟩

section

variable {count : Nat}

theorem Value.Linked.captured {v : Value} {f : Closure} (h : v.Linked count)
    (hf : v.closure? = some f) : f.scope < count := by
  induction v with
  | function g =>
    cases hf
    exact h
  | returned v ih => exact ih h hf
  | _ => cases hf

theorem Value.Linked.corresponds {ρ : Renumbering} (hρ : ρ.Fixes count) {v : Value}
    (h : v.Linked count) : v.Corresponds (Closure.Renumbered ρ count) v :=
  Value.corresponds_self fun f hf =>
    ⟨rfl, rfl, h.captured hf, (hρ.number f.scope (h.captured hf)).symm, hρ.place f.origin⟩

theorem Value.Corresponds.linked {ρ : Renumbering} {v u : Value}
    (h : v.Corresponds (Closure.Renumbered ρ count) u) : v.Linked count := by
  induction h with
  | function f g h => exact h.captured
  | returned v u _ ih => exact ih
  | _ => trivial

theorem Scopes.Linked.renumbered {ρ : Renumbering} {s t : Scopes} (h : s.Linked)
    (hst : s.Untouched t) (hρ : ρ.Fixes s.size) (hnext : ∀ k, ρ.number (s.size + k) = t.size + k) :
    s.Renumbered ρ t := by
  constructor
  · exact hnext
  · exact h.older
  · intro i scope hscope
    have hi := (Array.getElem?_eq_some_iff.1 hscope).1
    refine ⟨scope, by rw [hρ.number i hi, hst i hi, hscope], ?_, fun name => ?_⟩
    · cases houter : scope.outer with
      | none => rfl
      | some outer =>
        have holder := Nat.lt_trans (h.older i scope outer hscope houter) hi
        rw [Option.map_some, hρ.number outer holder]
    · cases hv : scope.get name with
      | none => trivial
      | some v => exact (h.captured i scope name v hscope hv).corresponds hρ

theorem Scopes.Linked.renumbered_self {s : Scopes} (h : s.Linked) : s.Renumbered .self s :=
  h.renumbered (fun _ _ => rfl) (Renumbering.self_fixes s.size) fun _ => rfl

theorem Scopes.Renumbered.linked {ρ : Renumbering} {s t : Scopes} (h : s.Renumbered ρ t) :
    s.Linked := by
  refine ⟨h.older, fun i scope name v hscope hv => ?_⟩
  obtain ⟨other, _, halike⟩ := h.counterpart i scope hscope
  have hbound := halike.bound name
  rw [hv] at hbound
  match other.get name, hbound with
  | some u, hbound => exact Value.Corresponds.linked hbound

end

theorem Session.evaluate_linked {session later : Session} {limit : Nat} {p : Program}
    {scope : ScopeId} {reply : Reply} (h : session.scopes.Linked)
    (hscope : scope < session.scopes.size)
    (hlater : session.evaluate limit p scope = some (reply, later)) :
    later.scopes.Linked ∧ ∀ v, reply = .finished (some v) → v.Linked later.scopes.size := by
  have hrun : (p.eval limit session.programs scope session.scopes).Corresponds
      (Renumbering.self.correspondence) session.scopes.size
      Renumbering.self.correspondence.Results
      (p.eval limit session.programs scope session.scopes) :=
    Program.renumbered_eval limit p hscope rfl _ _ _ (Nat.le_refl _) ⟨rfl, h.renumbered_self⟩
  unfold Session.evaluate at hlater
  generalize p.eval limit session.programs scope session.scopes = outcome at hlater hrun
  cases hrun with
  | done n r _ after _ hn hscopes hr =>
    cases hlater
    obtain ⟨rfl, hafter⟩ := hscopes
    refine ⟨hafter.linked, fun v hv => ?_⟩
    cases hv
    exact Value.Corresponds.linked hr
  | failed n e after _ hn hscopes =>
    cases hlater
    exact ⟨hscopes.2.linked, fun _ hv => nomatch hv⟩
  | exhausted => cases hlater

theorem Scopes.Linked.set {s : Scopes} (h : s.Linked) (i : ScopeId) (name : String) {v : Value}
    (hv : v.Linked s.size) : (s.set i name v).Linked :=
  (h.renumbered_self.set i name (hv.corresponds (Renumbering.self_fixes s.size))).linked

theorem Scopes.Linked.create {s : Scopes} (h : s.Linked) {outer : Option ScopeId}
    (houter : ∀ i, outer = some i → i < s.size) : (s.create outer).Linked :=
  (h.renumbered_self.create houter).linked

/-! ### Looking names up -/

/-- What a name means in a scope, found from scope to scope outward. -/
inductive Scopes.Finds (s : Scopes) (name : String) : ScopeId → Option Value → Prop where
  | here (i : ScopeId) (scope : Scope) (v : Value) (hscope : s[i]? = some scope)
      (hv : scope.get name = some v) : Scopes.Finds s name i (some v)
  | outward (i outer : ScopeId) (scope : Scope) (r : Option Value) (hscope : s[i]? = some scope)
      (hfree : scope.get name = none) (houter : scope.outer = some outer)
      (hr : Scopes.Finds s name outer r) : Scopes.Finds s name i r
  | nowhere (i : ScopeId) (scope : Scope) (hscope : s[i]? = some scope)
      (hfree : scope.get name = none) (houter : scope.outer = none) : Scopes.Finds s name i none

namespace Scopes.Linked

variable {s : Scopes} {i : ScopeId} {name : String}

theorem finds_get (h : s.Linked) (hi : i < s.size) : s.Finds name i (s.get i name) := by
  induction i using Nat.strongRecOn with
  | ind i ih =>
    have hscope := Array.getElem?_eq_getElem hi
    generalize s[i] = scope at hscope
    cases hv : scope.get name with
    | some v =>
      rw [get_bound hscope hv]
      exact .here i scope v hscope hv
    | none =>
      cases houter : scope.outer with
      | none =>
        rw [get_free hscope hv houter]
        exact .nowhere i scope hscope hv houter
      | some outer =>
        have holder := h.older i scope outer hscope houter
        rw [get_outward hscope hv houter holder]
        exact .outward i outer scope _ hscope hv houter (ih outer holder (Nat.lt_trans holder hi))

theorem finds_iff (h : s.Linked) (hi : i < s.size) (r : Option Value) :
    s.Finds name i r ↔ s.get i name = r := by
  constructor
  · intro hr
    induction hr with
    | here i scope v hscope hv => exact get_bound hscope hv
    | outward i outer scope r hscope hfree houter _ ih =>
      have holder := h.older i scope outer hscope houter
      rw [get_outward hscope hfree houter holder]
      exact ih (Nat.lt_trans holder hi)
    | nowhere i scope hscope hfree houter => exact get_free hscope hfree houter
  · rintro rfl
    exact h.finds_get hi

end Scopes.Linked

/-! ### What later tables keep -/

/-- Every scope is still there, in the same scope, and what it does not bind it never did. -/
def Scopes.Extends (s t : Scopes) : Prop :=
  ∀ (i : ScopeId) (scope : Scope), s[i]? = some scope → ∃ now : Scope, t[i]? = some now ∧
    now.outer = scope.outer ∧ ∀ name, now.get name = none → scope.get name = none

namespace Scopes.Extends

variable {s t u : Scopes}

theorem refl (s : Scopes) : s.Extends s :=
  fun _ scope hscope => ⟨scope, hscope, rfl, fun _ h => h⟩

theorem trans (h : s.Extends t) (h' : t.Extends u) : s.Extends u := by
  intro i scope hscope
  obtain ⟨middle, hmiddle, houter, hbound⟩ := h i scope hscope
  obtain ⟨now, hnow, houter', hbound'⟩ := h' i middle hmiddle
  exact ⟨now, hnow, houter'.trans houter, fun name hname => hbound name (hbound' name hname)⟩

theorem set (s : Scopes) (i : ScopeId) (name : String) (v : Value) :
    s.Extends (s.set i name v) := by
  intro j scope hscope
  by_cases hji : j = i
  · subst hji
    refine ⟨scope.set name v, set_self name v hscope, rfl, fun other hother => ?_⟩
    by_cases hname : other = name
    · rw [hname, Scope.get_set_self] at hother
      cases hother
    · rwa [Scope.get_set_of_ne _ _ _ _ hname] at hother
  · exact ⟨scope, by rw [set_other s name v hji, hscope], rfl, fun _ h => h⟩

theorem create (s : Scopes) (outer : Option ScopeId) : s.Extends (s.create outer) := by
  intro i scope hscope
  have hi := (Array.getElem?_eq_some_iff.1 hscope).1
  exact ⟨scope, by rw [create_other s outer hi, hscope], rfl, fun _ h => h⟩

theorem replay (es : List Event) (s : Scopes) : s.Extends (Monkey.replay es s) := by
  induction es generalizing s with
  | nil => exact refl s
  | cons event es ih =>
    have hevent : s.Extends (event.replay s) := by
      cases event with
      | entered scope outer => exact create s _
      | bound scope name v => exact set s scope name v
      | _ => exact refl s
    exact hevent.trans (ih _)

theorem outer_eq (h : s.Extends t) {i : ScopeId} (hi : i < s.size) :
    (t[i]?).map Scope.outer = (s[i]?).map Scope.outer := by
  obtain ⟨now, hnow, houter, _⟩ := h i s[i] (Array.getElem?_eq_getElem hi)
  rw [hnow, Array.getElem?_eq_getElem hi, Option.map_some, Option.map_some, houter]

theorem isSome_get (h : s.Extends t) (hs : s.Linked) {i : ScopeId} {name : String}
    (hname : (s.get i name).isSome) : (t.get i name).isSome := by
  induction i using Nat.strongRecOn with
  | ind i ih =>
    cases hscope : s[i]? with
    | none =>
      rw [get_missing hscope] at hname
      cases hname
    | some scope =>
      obtain ⟨now, hnow, houter, hbound⟩ := h i scope hscope
      cases hown : now.get name with
      | some v =>
        rw [get_bound hnow hown]
        rfl
      | none =>
        have hfree := hbound name hown
        cases ho : scope.outer with
        | none =>
          rw [get_free hscope hfree ho] at hname
          cases hname
        | some outer =>
          have holder := hs.older i scope outer hscope ho
          rw [get_outward hscope hfree ho holder] at hname
          rw [get_outward hnow hown (houter.trans ho) holder]
          exact ih outer holder hname

end Scopes.Extends

theorem Session.evaluate_extends {session later : Session} {limit : Nat} {p : Program}
    {scope : ScopeId} {reply : Reply}
    (hlater : session.evaluate limit p scope = some (reply, later)) :
    session.scopes.Extends later.scopes := by
  have hreplay : Monkey.replay (session.run ⟨limit, p, scope⟩).events session.scopes =
      later.scopes := (evaluate_run hlater).1
  rw [← hreplay]
  exact .replay _ _

/-! ### Operations on a session -/

inductive Operation where
  | root
  | enclose (outer : ScopeId)
  | set (scope : ScopeId) (name : String) (value : Value)
  | evaluate (limit : Nat) (program : Program) (scope : ScopeId)

def Reply.value? : Reply → Option Value
  | finished value => value
  | _ => none

namespace Session

/-- The value that an operation yields, and the session after it. There is none if the
operation refers to a scope that is not there, or is cut off. -/
def perform? (session : Session) : Operation → Option (Option Value × Session)
  | .root => some (none, session.root.2)
  | .enclose outer =>
    if outer < session.scopes.size then some (none, (session.enclose outer).2) else none
  | .set scope name value =>
    if scope < session.scopes.size ∧ value.Linked session.scopes.size then
      some (some value, session.set scope name value)
    else none
  | .evaluate limit program scope =>
    if scope < session.scopes.size then
      (session.evaluate limit program scope).map fun answer => (answer.1.value?, answer.2)
    else none

def performAll? (session : Session) : List Operation → Option Session
  | [] => some session
  | operation :: rest => (session.perform? operation).bind fun answer => answer.2.performAll? rest

theorem perform_linked {session later : Session} {operation : Operation} {r : Option Value}
    (h : session.scopes.Linked) (hr : session.perform? operation = some (r, later)) :
    later.scopes.Linked ∧ (∀ v, r = some v → v.Linked later.scopes.size) ∧
      session.scopes.Extends later.scopes := by
  cases operation with
  | root =>
    cases hr
    exact ⟨h.create fun _ h => (nomatch h), fun _ h => (nomatch h), .create _ _⟩
  | enclose outer =>
    simp only [perform?, Option.ite_none_right_eq_some] at hr
    obtain ⟨houter, hr⟩ := hr
    cases hr
    refine ⟨h.create ?_, fun _ h => (nomatch h), .create _ _⟩
    rintro _ ⟨⟩
    exact houter
  | set scope name v =>
    simp only [perform?, Option.ite_none_right_eq_some] at hr
    obtain ⟨⟨_, hv⟩, hr⟩ := hr
    cases hr
    refine ⟨h.set scope name hv, ?_, .set _ _ _ _⟩
    rintro _ ⟨⟩
    exact (size_set session.scopes scope name v).symm ▸ hv
  | evaluate limit p scope =>
    simp only [perform?, Option.ite_none_right_eq_some, Option.map_eq_some_iff] at hr
    obtain ⟨hscope, ⟨reply, after⟩, hrun, hr⟩ := hr
    cases hr
    obtain ⟨hlinked, hreply⟩ := evaluate_linked h hscope hrun
    refine ⟨hlinked, fun v hv => hreply v ?_, evaluate_extends hrun⟩
    cases reply with
    | finished value => exact congrArg Reply.finished hv
    | _ => cases hv

theorem performAll_linked {session later : Session} {operations : List Operation}
    (h : session.scopes.Linked) (hlater : session.performAll? operations = some later) :
    later.scopes.Linked ∧ session.scopes.Extends later.scopes := by
  induction operations generalizing session with
  | nil =>
    cases hlater
    exact ⟨h, .refl _⟩
  | cons operation rest ih =>
    obtain ⟨⟨r, middle⟩, hmiddle, hrest⟩ := Option.bind_eq_some_iff.1 hlater
    obtain ⟨hlinked, _, hextends⟩ := perform_linked h hmiddle
    obtain ⟨hlast, hextends'⟩ := ih hlinked hrest
    exact ⟨hlast, hextends.trans hextends'⟩

end Session

theorem Scopes.linked_empty : Scopes.Linked #[] :=
  ⟨fun _ _ _ h => (nomatch h), fun _ _ _ _ h => (nomatch h)⟩

theorem Scopes.linked_root : Session.empty.root.2.scopes.Linked :=
  Scopes.linked_empty.create fun _ h => nomatch h

/-- In every session that operations lead to, the scope around a scope is older, every
function captures a scope that is there, in the table and as the value of an operation,
and looking up a name ends in one way, in every scope. In all later sessions, scopes
are in the same scopes as before, and names that mean something still do. -/
theorem scope_graph {before after : List Operation} {session later : Session}
    (hsession : Session.empty.performAll? before = some session)
    (hlater : session.performAll? after = some later) :
    session.scopes.Linked ∧
    (∀ operation v next, session.perform? operation = some (some v, next) →
      v.Linked next.scopes.size) ∧
    (∀ i < session.scopes.size, ∀ name r,
      session.scopes.Finds name i r ↔ session.get i name = r) ∧
    (∀ i < session.scopes.size,
      (later.scopes[i]?).map Scope.outer = (session.scopes[i]?).map Scope.outer) ∧
    ∀ i name, (session.get i name).isSome → (later.get i name).isSome := by
  obtain ⟨hlinked, _⟩ := Session.performAll_linked Scopes.linked_empty hsession
  obtain ⟨_, hextends⟩ := Session.performAll_linked hlinked hlater
  refine ⟨hlinked, ?_, fun i hi name r => hlinked.finds_iff hi r,
    fun i hi => hextends.outer_eq hi, fun i name h => hextends.isSome_get hlinked h⟩
  intro operation v next hnext
  exact (Session.perform_linked hlinked hnext).2.1 v rfl

/-- A function that is bound in the scope it captures, seen from a scope inside, and a
program that fails within a call. -/
theorem circular_capture_found :
    let f : Closure := ⟨["x"], [.expr (.ident "f")], 0, ⟨0, [0, 0]⟩⟩
    let made : List Operation :=
      [.root, .evaluate 1 [.bind "f" (.fn ["x"] [.expr (.ident "f")])] 0, .enclose 0]
    let failing : List Operation := [.evaluate 1
      [.expr (.call (.fn [] [.bind "y" (.int 1), .expr (.prefixOp .minus (.bool true))]) [])] 1]
    let session : Session := ⟨#[⟨none, [("f", .function f)]⟩, ⟨some 0, []⟩], 1⟩
    let later : Session :=
      ⟨#[⟨none, [("f", .function f)]⟩, ⟨some 0, []⟩, ⟨some 1, [("y", .int 1)]⟩], 2⟩
    Session.empty.performAll? made = some session ∧ session.performAll? failing = some later ∧
      session.scopes.Finds "f" 1 (some (.function f)) ∧ (later.get 1 "f").isSome := by
  intro f made failing session later
  have hsession : Session.empty.performAll? made = some session := rfl
  have hlater : session.performAll? failing = some later := rfl
  obtain ⟨_, _, hfinds, _, hkept⟩ := scope_graph hsession hlater
  have hget : session.get 1 "f" = some (.function f) :=
    (Scopes.get_outward rfl rfl rfl Nat.zero_lt_one).trans (Scopes.get_bound rfl rfl)
  exact ⟨hsession, hlater, (hfinds 1 Nat.one_lt_two "f" _).2 hget, hkept 1 "f" (by rw [hget]; rfl)⟩

end Monkey
