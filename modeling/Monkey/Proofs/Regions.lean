import Monkey.Scope

/-!
# The scopes that a scope leads to

An evaluation comes from its scope to the scopes around it, and to those that the functions
have captured which are bound there. Together with the scopes still to be created, these
are a region that nothing in it leads out of.
-/

set_option autoImplicit false

namespace Monkey

namespace Scopes

/-- The scopes that a scope leads to: those around it, and those that the functions bound
there capture, also functions that are wrapped. -/
inductive LeadsTo (s : Scopes) (start : ScopeId) : ScopeId → Prop where
  | start : LeadsTo s start start
  | outward (i outer : ScopeId) (a : Scope) (h : LeadsTo s start i) (ha : s[i]? = some a)
      (houter : a.outer = some outer) : LeadsTo s start outer
  | captured (i : ScopeId) (a : Scope) (name : String) (v : Value) (f : Closure)
      (h : LeadsTo s start i) (ha : s[i]? = some a) (hv : a.get name = some v)
      (hf : v.closure? = some f) : LeadsTo s start f.scope

/-- What a scope leads to, together with all scopes still to be created. -/
def From (s : Scopes) (start : ScopeId) : ScopeId → Prop :=
  fun i => s.LeadsTo start i ∨ s.size ≤ i

variable {s : Scopes} {start i : ScopeId} {a : Scope}

theorem From.leadsTo (h : s.From start i) (ha : s[i]? = some a) : s.LeadsTo start i :=
  h.resolve_right (Nat.not_le_of_lt (Array.getElem?_eq_some_iff.1 ha).1)

theorem From.outward (h : s.From start i) (ha : s[i]? = some a) {outer : ScopeId}
    (houter : a.outer = some outer) : s.From start outer :=
  .inl (.outward i outer a (h.leadsTo ha) ha houter)

theorem From.captured (h : s.From start i) (ha : s[i]? = some a) {name : String} {v : Value}
    {f : Closure} (hv : a.get name = some v) (hf : v.closure? = some f) : s.From start f.scope :=
  .inl (.captured i a name v f (h.leadsTo ha) ha hv hf)

end Scopes

end Monkey
