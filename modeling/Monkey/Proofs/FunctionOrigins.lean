import Monkey.Eval.Register
import Monkey.Proofs.PlainScopes

/-!
# Where functions come from

Every function value that an evaluation comes across, in a scope or as a result, was
created by the evaluation of a literal, as the register says, and has been handed on
unchanged since. Each call opens a scope of its own, and what is created within a call
captures that scope. All this is kept by every part of an evaluation, also where it fails.
-/

set_option autoImplicit false

namespace Monkey

/-! ### What a register says -/

structure Register.Grows (register later : Register) : Prop where
  opened : ∀ (i : Nat) (scope : ScopeId), register.opened[i]? = some scope →
    later.opened[i]? = some scope
  creations : ∀ c ∈ register.creations, c ∈ later.creations

def Register.Lists (register : Register) (f : Closure) : Prop :=
  ∃ c ∈ register.creations, c.closure = f

def Value.Registered (register : Register) (v : Value) : Prop :=
  ∀ f, v.closure? = some f → register.Lists f

/-- The scope of a call is the one that it has opened. -/
def Register.Knows (register : Register) (within : Activation) : Prop :=
  ∀ i, within.call = some i → register.opened[i]? = some within.scope

/-- The register is right about the scopes. -/
structure Register.Describes (rule : LiteralRule) (register : Register) (s : Scopes) : Prop where
  exist : ∀ (i : Nat) (scope : ScopeId), register.opened[i]? = some scope → scope < s.size
  once : ∀ (i j : Nat) (scope : ScopeId), register.opened[i]? = some scope →
    register.opened[j]? = some scope → i = j
  literal : ∀ c ∈ register.creations, (Expr.fn c.params c.body).Literals rule c.node
  within : ∀ c ∈ register.creations, register.Knows c.within
  bound : ∀ (i : ScopeId) (scope : Scope) (name : String) (v : Value), s[i]? = some scope →
    (name, v) ∈ scope.bindings → v.Registered register

section

variable {rule : LiteralRule} {register later last : Register} {s : Scopes}

namespace Register.Grows

theorem refl (register : Register) : register.Grows register :=
  ⟨fun _ _ h => h, fun _ h => h⟩

theorem trans (h : register.Grows later) (h' : later.Grows last) : register.Grows last :=
  ⟨fun i scope hi => h'.opened i scope (h.opened i scope hi),
    fun c hc => h'.creations c (h.creations c hc)⟩

theorem note (register : Register) (event : Event) : register.Grows (register.note event) := by
  cases event with
  | entered scope outer =>
    refine ⟨fun i old hi => ?_, fun _ h => h⟩
    have hlt := (Array.getElem?_eq_some_iff.1 hi).1
    rwa [Register.note, Array.getElem?_push, if_neg (Nat.ne_of_lt hlt)]
  | created scope node ps body => exact ⟨fun _ _ h => h, fun _ h => List.mem_cons_of_mem _ h⟩
  | _ => exact ⟨fun _ _ h => h, fun _ h => h⟩

theorem lists (h : register.Grows later) {f : Closure} (hf : register.Lists f) : later.Lists f := by
  obtain ⟨c, hc, rfl⟩ := hf
  exact ⟨c, h.creations c hc, rfl⟩

theorem registered (h : register.Grows later) {v : Value} (hv : v.Registered register) :
    v.Registered later :=
  fun f hf => h.lists (hv f hf)

theorem knows (h : register.Grows later) {within : Activation} (hw : register.Knows within) :
    later.Knows within :=
  fun i hi => h.opened i _ (hw i hi)

end Register.Grows

theorem Register.registered_created (register : Register) (scope : ScopeId) (node : Site)
    (ps : List String) (body : Block) :
    (Value.function ⟨ps, body, scope, node⟩).Registered
      (register.note (.created scope node ps body)) := by
  rintro _ ⟨⟩
  exact ⟨_, List.mem_cons_self, rfl⟩

theorem Value.Atom.registered {v : Value} (h : v.Atom) : v.Registered register := by
  cases v with
  | int n => exact nofun
  | bool b => exact nofun
  | null => exact nofun
  | _ => exact h.elim

namespace Register.Describes

theorem get (h : register.Describes rule s) {i : ScopeId} {name : String} {v : Value}
    (hv : s.get i name = some v) : v.Registered register := by
  obtain ⟨j, scope, hscope, hbound⟩ := Scopes.bound_of_get hv
  exact h.bound j scope name v hscope (Scope.mem_of_get hbound)

theorem set (h : register.Describes rule s) (i : ScopeId) (name : String) {v : Value}
    (hv : v.Registered register) : register.Describes rule (s.set i name v) := by
  refine ⟨fun j scope hj => ?_, h.once, h.literal, h.within, fun j scope key w hj hw => ?_⟩
  · rw [size_set]
    exact h.exist j scope hj
  · obtain ⟨old, hold, rfl | rfl⟩ := set_cases hj
    · exact h.bound j scope key w hold hw
    · rcases List.mem_cons.1 hw with heq | hmem
      · cases heq
        exact hv
      · exact h.bound j old key w hold (List.mem_filter.1 hmem).1

theorem createScope (h : register.Describes rule s) (outer : Option ScopeId) :
    register.Describes rule (s.create outer) := by
  refine ⟨fun i scope hi => ?_, h.once, h.literal, h.within, fun i scope name v hi hv => ?_⟩
  · rw [size_create]
    exact Nat.lt_succ_of_lt (h.exist i scope hi)
  · rcases create_cases hi with hold | ⟨rfl, rfl⟩
    · exact h.bound i scope name v hold hv
    · cases hv

theorem enter (h : register.Describes rule s) (outer : ScopeId) :
    (register.note (.entered s.size outer)).Describes rule (s.create (some outer)) := by
  have hgrows := Register.Grows.note register (.entered s.size outer)
  have hopened : ∀ (i : Nat) (scope : ScopeId), (register.opened.push s.size)[i]? = some scope →
      register.opened[i]? = some scope ∨ i = register.opened.size ∧ scope = s.size := by
    intro i scope hi
    rw [Array.getElem?_push] at hi
    split at hi
    · next hlast =>
      cases hi
      exact .inr ⟨hlast, rfl⟩
    · exact .inl hi
  have hcreated := h.createScope (some outer)
  refine ⟨fun i scope hi => ?_, fun i j scope hi hj => ?_, h.literal,
    fun c hc => hgrows.knows (h.within c hc),
    fun i scope name v hi hv => hgrows.registered (hcreated.bound i scope name v hi hv)⟩
  · rcases hopened i scope hi with hold | ⟨_, rfl⟩
    · exact hcreated.exist i scope hold
    · rw [size_create]
      exact Nat.lt_succ_self _
  · rcases hopened i scope hi with hi | ⟨rfl, rfl⟩
    · rcases hopened j scope hj with hj | ⟨_, rfl⟩
      · exact h.once i j scope hi hj
      · exact absurd (h.exist i _ hi) (Nat.lt_irrefl _)
    · rcases hopened j _ hj with hj | ⟨rfl, _⟩
      · exact absurd (h.exist j _ hj) (Nat.lt_irrefl _)
      · rfl

theorem leave (h : register.Describes rule s) (scope : ScopeId)
    (result : Except EvalError Value) : (register.note (.left scope result)).Describes rule s :=
  ⟨h.exist, h.once, h.literal, h.within, h.bound⟩

theorem create (h : register.Describes rule s) {scope : ScopeId} {node : Site}
    {ps : List String} {body : Block} (hliteral : (Expr.fn ps body).Literals rule node)
    (hwithin : register.Knows (register.activation scope)) :
    (register.note (.created scope node ps body)).Describes rule s := by
  have hgrows := Register.Grows.note register (.created scope node ps body)
  exact ⟨h.exist, h.once, List.forall_mem_cons.2 ⟨hliteral, h.literal⟩,
    List.forall_mem_cons.2 ⟨hwithin, h.within⟩,
    fun i scope name v hi hv => hgrows.registered (h.bound i scope name v hi hv)⟩

theorem scope_ne (h : register.Describes rule s) {c d : Creation} (hc : c ∈ register.creations)
    (hd : d ∈ register.creations) {i j : Nat} (hi : c.within.call = some i)
    (hj : d.within.call = some j) (hne : i ≠ j) : c.within.scope ≠ d.within.scope := by
  intro heq
  have hopened := h.within d hd j hj
  rw [← heq] at hopened
  exact hne (h.once i j _ (h.within c hc i hi) hopened)

end Register.Describes

end

/-! ### What an evaluation keeps -/

namespace Invariant

/-- The register grows, and when a computation has come to an end, the same calls are active as
before. -/
def registered (rule : LiteralRule) : Invariant Register where
  kept := fun r es u => r.noteAll es = u ∧ r.Grows u ∧ u.active = r.active
  cut := fun _ _ _ => True
  fits := fun r s => r.Describes rule s
  ready := fun _ => True
  plain := fun r v => v.Registered r
  out := fun _ r v => v.Registered r
  bad := fun _ => True
  kept_nil := fun r => ⟨rfl, .refl r, rfl⟩
  kept_append := by
    rintro r u v es fs ⟨hes, hgrows, hactive⟩ ⟨hfs, hgrows', hactive'⟩
    refine ⟨?_, hgrows.trans hgrows', hactive'.trans hactive⟩
    rw [← hfs, ← hes, Register.noteAll, List.foldl_append]
    rfl
  cut_nil := fun _ => trivial
  cut_append := fun _ _ => trivial
  plain_kept := fun hkept hv => hkept.2.1.registered hv
  atom := Value.Atom.registered
  out_of_plain := fun _ h => h
  typed := fun _ => trivial

variable {rule : LiteralRule}

theorem registered_value {inside : Bool} {r : Register} {v : Value} :
    (registered rule).value inside r v ↔ v.Registered r := by
  cases v with
  | returned v => exact Iff.rfl
  | _ => exact ⟨And.right, And.intro trivial⟩

theorem registered_unwrapped {r : Register} {v : Value} (h : (registered rule).unwrapped r v) :
    v.Registered r :=
  h.elim id And.right

theorem registered_binds (r : Register) (scope : ScopeId) : (registered rule).Binds r scope :=
  fun name _ _ hv hs => ⟨r, ⟨rfl, .refl r, rfl⟩, hs.set scope name hv, trivial⟩

theorem registered_later {r u : Register} {es : List Event} {scope : ScopeId}
    (h : r.Knows (r.activation scope)) (hkept : (registered rule).kept r es u) :
    u.Knows (u.activation scope) := by
  obtain ⟨_, hgrows, hactive⟩ := hkept
  intro i hi
  apply hgrows.opened
  apply h
  rwa [Register.activation, hactive] at hi

/-- The innermost call that is active has opened the scope that code is evaluated in. -/
theorem registered_places (rule : LiteralRule) :
    (registered rule).Places (fun r scope => r.Knows (r.activation scope))
      fun _ => literalCode rule where
  ready := fun _ => trivial
  later := fun h hkept _ => registered_later h hkept
  operand := id
  lookup := fun _ _ hs => ⟨fun _ hv => hs.get hv, trivial⟩
  binds := fun _ _ => registered_binds _ _
  literal := fun {_ r scope site ps body _} h he hs =>
    ⟨r.note (.created scope site ps body), ⟨rfl, .note r _, rfl⟩, hs.create he h, trivial,
      r.registered_created scope site ps body⟩
  returning := fun {_ r _ _ _ _} _ hv hs => ⟨r, ⟨rfl, .refl r, rfl⟩, hs, registered_value.1 hv⟩

theorem registered_left {r u : Register} {es : List Event} {scope outer : ScopeId}
    (h : (registered rule).kept (r.note (.entered scope outer)) es u)
    (result : Except EvalError Value) :
    (registered rule).kept r (.entered scope outer :: (es ++ [.left scope result]))
      (u.note (.left scope result)) := by
  obtain ⟨hes, hgrows, hactive⟩ := h
  refine ⟨?_, ((Register.Grows.note r _).trans hgrows).trans (.note u _), ?_⟩
  · rw [Register.noteAll, List.foldl_cons, List.foldl_append]
    exact congrArg (Register.note · (.left scope result)) hes
  · change u.active.tail = r.active
    rw [hactive]
    rfl

theorem registered_encloses (r : Register) (scope outer : ScopeId) :
    (registered rule).Encloses r scope outer (r.note (.entered scope outer)) := by
  constructor
  · intro u s es v hkept hs hv
    have hplain := (Register.Grows.note u (.left scope (.ok v))).registered
      (registered_unwrapped hv)
    exact ⟨_, registered_left hkept _, hs.leave _ _, fun _ => registered_value.2 hplain⟩
  · exact fun hkept hs _ _ => ⟨_, registered_left hkept _, hs.leave _ _, trivial⟩
  · exact fun _ _ => ⟨r, trivial, trivial⟩

theorem registered_entries (rule : LiteralRule) :
    (registered rule).Entries (fun r scope => r.Knows (r.activation scope))
      fun _ => literalCode rule where
  toPlaces := registered_places rule
  opened := by
    rintro r f s _ hf hs
    obtain ⟨c, hc, rfl⟩ := hf f rfl
    refine ⟨_, ?_, hs.enter c.closure.scope, (hs.literal c hc).2,
      fun v hv => (Register.Grows.note r _).registered hv, registered_encloses _ _ _⟩
    rintro _ ⟨⟩
    exact Array.getElem?_push_size
  assigns := fun _ => registered_binds _ _

end Invariant

/-- A program that begins while no call is active. -/
theorem Tracing.registered_program {rule : LiteralRule} {r : Register} {s : Scopes}
    (hs : r.Describes rule s) (hidle : r.active = []) (limit number : Nat) {p : Program}
    (scope : ScopeId) (hp : Stmt.AllLiterals rule ⟨number, []⟩ p) :
    let run := program limit p number scope s
    (∀ after, run.outcome.scopes? = some after → r.Grows (r.noteAll run.events) ∧
      (r.noteAll run.events).active = [] ∧ (r.noteAll run.events).Describes rule after) ∧
    ∀ v after, run.outcome = .done (some v) after → v.Registered (r.noteAll run.events) := by
  have hhere : r.Knows (r.activation scope) := by
    intro i hi
    rw [Register.activation, hidle] at hi
    cases hi
  have hrun := Invariant.keeps_program (Invariant.registered_entries rule) limit hhere hp s hs
  generalize program limit p number scope s = run at hrun
  cases hrun with
  | done u x after es hkept hafter hx =>
    obtain ⟨rfl, hgrows, hactive⟩ := hkept
    refine ⟨?_, ?_⟩
    · rintro _ ⟨⟩
      exact ⟨hgrows, hactive.trans hidle, hafter⟩
    · rintro v _ ⟨⟩
      exact Invariant.registered_unwrapped hx
  | failed u e after es hkept hafter =>
    obtain ⟨rfl, hgrows, hactive⟩ := hkept
    refine ⟨?_, nofun⟩
    rintro _ ⟨⟩
    exact ⟨hgrows, hactive.trans hidle, hafter⟩
  | exhausted => exact ⟨nofun, nofun⟩

end Monkey
