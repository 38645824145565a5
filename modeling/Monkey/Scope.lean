import Monkey.Value

/-!
# Scopes

A scope binds names to values and may have an outer scope, in which the names
that it does not bind are looked up. Scopes are numbered in the order of their
creation and never disappear. An outer scope is older than every scope inside
it, so that a lookup comes to an end.
-/

set_option autoImplicit false

namespace Monkey

structure Scope where
  outer : Option ScopeId
  bindings : List (String × Value)

namespace Scope

def get (scope : Scope) (name : String) : Option Value := scope.bindings.lookup name

def set (scope : Scope) (name : String) (value : Value) : Scope :=
  ⟨scope.outer, (name, value) :: scope.bindings.filter (fun binding => binding.1 != name)⟩

end Scope

abbrev Scopes := Array Scope

namespace Scopes

/-- A new scope; its number is the count of the scopes before it. -/
def create (scopes : Scopes) (outer : Option ScopeId) : Scopes := scopes.push ⟨outer, []⟩

def set (scopes : Scopes) (id : ScopeId) (name : String) (value : Value) : Scopes :=
  scopes.modify id (fun scope => scope.set name value)

/-- The value of a name in a scope, or in the nearest scope outward that binds it. -/
def get (scopes : Scopes) (id : ScopeId) (name : String) : Option Value :=
  match scopes[id]? with
  | none => none
  | some scope =>
    match scope.get name, scope.outer with
    | some value, _ => some value
    | none, none => none
    | none, some outer => if outer < id then get scopes outer name else none
termination_by id

end Scopes

theorem Scope.get_set_self (scope : Scope) (name : String) (value : Value) :
    (scope.set name value).get name = some value := by
  simp [Scope.get, Scope.set]

theorem Scope.get_set_of_ne (scope : Scope) (name other : String) (value : Value)
    (h : other ≠ name) : (scope.set name value).get other = scope.get other := by
  have hne : (other == name) = false := by simpa using h
  simp only [Scope.get, Scope.set, List.lookup_cons, hne]
  induction scope.bindings with
  | nil => rfl
  | cons binding rest ih =>
    obtain ⟨key, old⟩ := binding
    by_cases hkey : key = name
    · subst hkey
      simpa [List.lookup_cons, hne] using ih
    · simp [hkey, List.lookup_cons, ih]

theorem Scope.mem_of_get {scope : Scope} {name : String} {value : Value}
    (h : scope.get name = some value) : (name, value) ∈ scope.bindings := by
  obtain ⟨before, after, hsplit, _⟩ := List.lookup_eq_some_iff.1 h
  simp [hsplit]

namespace Scopes

variable {scopes : Scopes} {id outer : ScopeId} {scope : Scope} {name : String} {value : Value}

theorem get_bound (h : scopes[id]? = some scope) (hbound : scope.get name = some value) :
    scopes.get id name = some value := by
  rw [get, h]
  simp only [hbound]

theorem get_outward (h : scopes[id]? = some scope) (hfree : scope.get name = none)
    (houter : scope.outer = some outer) (holder : outer < id) :
    scopes.get id name = scopes.get outer name := by
  rw [get, h]
  simp only [hfree, houter, if_pos holder]

theorem get_stuck (h : scopes[id]? = some scope) (hfree : scope.get name = none)
    (houter : scope.outer = some outer) (holder : ¬ outer < id) : scopes.get id name = none := by
  rw [get, h]
  simp only [hfree, houter, if_neg holder]

theorem get_free (h : scopes[id]? = some scope) (hfree : scope.get name = none)
    (houter : scope.outer = none) : scopes.get id name = none := by
  rw [get, h]
  simp only [hfree, houter]

theorem get_missing (h : scopes[id]? = none) : scopes.get id name = none := by
  rw [get, h]

theorem bound_of_get (h : scopes.get id name = some value) :
    ∃ (i : ScopeId) (scope : Scope), scopes[i]? = some scope ∧ scope.get name = some value := by
  induction id using Nat.strongRecOn with
  | ind id ih =>
    unfold get at h
    split at h
    · cases h
    · next scope hscope =>
      split at h
      · next hbound =>
        cases h
        exact ⟨id, scope, hscope, hbound⟩
      · cases h
      · next outer _ _ =>
        split at h
        · next holder => exact ih outer holder h
        · cases h

end Scopes

end Monkey
