import Monkey.Proofs.SameCode

/-!
# Tables with the same scopes

Two tables are aligned if scopes of the same number are in the same scopes and
bind names to corresponding values. This may be required of some names only, and
only in a region of scopes that nothing leads out of.
-/

set_option autoImplicit false

namespace Monkey

/-- The scopes and the names that are compared, and the functions that correspond. -/
structure Alignment where
  region : ScopeId → Prop
  kind : String → Prop
  closure : Closure → Closure → Prop

structure Scope.Aligned (A : Alignment) (a b : Scope) : Prop where
  outer : b.outer = a.outer
  inside : ∀ outer, a.outer = some outer → A.region outer
  bound : ∀ name, A.kind name → CorrespondingOptions A.closure (a.get name) (b.get name)

/-- Scopes still to be created belong to the region. -/
structure Scopes.Aligned (A : Alignment) (s t : Scopes) : Prop where
  same_size : t.size = s.size
  new : ∀ i, s.size ≤ i → A.region i
  counterpart : ∀ (i : ScopeId) (a : Scope), A.region i → s[i]? = some a →
    ∃ b, t[i]? = some b ∧ a.Aligned A b

def Alignment.correspondence (A : Alignment) : Correspondence Unit where
  later := fun _ _ => True
  refl := fun _ => trivial
  trans := fun _ _ => trivial
  scopes := fun _ s t => s.Aligned A t
  closure := fun _ => A.closure
  mono := fun _ h => h

section

variable {A : Alignment}

theorem Scope.Aligned.set {a b : Scope} {name : String} {v u : Value} (h : a.Aligned A b)
    (hv : v.Corresponds A.closure u) : (a.set name v).Aligned A (b.set name u) := by
  refine ⟨h.outer, h.inside, fun other hother => ?_⟩
  by_cases hname : other = name
  · subst hname
    rw [Scope.get_set_self, Scope.get_set_self]
    exact hv
  · rw [Scope.get_set_of_ne _ _ _ _ hname, Scope.get_set_of_ne _ _ _ _ hname]
    exact h.bound other hother

namespace Scopes

variable {s t : Scopes} {i outer : ScopeId} {name : String}

theorem Aligned.get (h : s.Aligned A t) (hi : A.region i) (hname : A.kind name) :
    CorrespondingOptions A.closure (s.get i name) (t.get i name) := by
  induction i using Nat.strongRecOn with
  | ind i ih =>
    cases ha : s[i]? with
    | none =>
      have hb : t[i]? = none := by
        rw [Array.getElem?_eq_none_iff] at ha ⊢
        rwa [h.same_size]
      rw [get_missing ha, get_missing hb]
      trivial
    | some a =>
      obtain ⟨b, hb, halike⟩ := h.counterpart i a hi ha
      have houter : b.outer = a.outer.map id := by rw [Option.map_id, halike.outer, id]
      exact get_corresponds ha hb (halike.bound name hname) houter (fun _ _ => Iff.rfl)
        fun outer hout _ holder => ih outer holder (halike.inside outer hout)

theorem Aligned.set (h : s.Aligned A t) (i : ScopeId) (name : String) {v u : Value}
    (hv : v.Corresponds A.closure u) : (s.set i name v).Aligned A (t.set i name u) := by
  constructor
  · rw [size_set, size_set, h.same_size]
  · rw [size_set]
    exact h.new
  · intro j a hj ha
    by_cases hji : j = i
    · subst hji
      obtain ⟨old, hold, _⟩ := set_cases ha
      obtain ⟨b, hb, halike⟩ := h.counterpart j old hj hold
      rw [set_self name v hold] at ha
      cases ha
      exact ⟨_, set_self name u hb, halike.set hv⟩
    · rw [set_other s name v hji] at ha
      obtain ⟨b, hb, halike⟩ := h.counterpart j a hj ha
      exact ⟨b, by rw [set_other t name u hji, hb], halike⟩

theorem Aligned.set_right (h : s.Aligned A t) (hname : ¬ A.kind name) (i : ScopeId) (u : Value) :
    s.Aligned A (t.set i name u) := by
  refine ⟨by rw [size_set, h.same_size], h.new, fun j a hj ha => ?_⟩
  obtain ⟨b, hb, halike⟩ := h.counterpart j a hj ha
  by_cases hji : j = i
  · subst hji
    refine ⟨b.set name u, set_self name u hb, halike.outer, halike.inside, fun other hother => ?_⟩
    have hne : other ≠ name := fun heq => hname (heq ▸ hother)
    rw [Scope.get_set_of_ne _ _ _ _ hne]
    exact halike.bound other hother
  · exact ⟨b, by rw [set_other t name u hji, hb], halike⟩

theorem Aligned.create (h : s.Aligned A t) (houter : A.region outer) :
    (s.create (some outer)).Aligned A (t.create (some outer)) := by
  constructor
  · rw [size_create, size_create, h.same_size]
  · intro i hi
    rw [size_create] at hi
    exact h.new i (Nat.le_of_succ_le hi)
  · intro j a hj ha
    rcases create_cases ha with hold | ⟨rfl, rfl⟩
    · obtain ⟨b, hb, halike⟩ := h.counterpart j a hj hold
      refine ⟨b, ?_, halike⟩
      rw [create_other t _ (Array.getElem?_eq_some_iff.1 hb).1, hb]
    · refine ⟨⟨some outer, []⟩, ?_, rfl, ?_, fun _ _ => trivial⟩
      · rw [← h.same_size]
        exact create_self t _
      · rintro _ ⟨⟩
        exact houter

theorem Aligned.setAll (h : s.Aligned A t) (i : ScopeId) {vs us : List Value}
    (hvs : A.correspondence.Lists () vs us) (ps : List String) :
    (s.setAll i (ps.zip vs)).Aligned A (t.setAll i (ps.zip us)) := by
  induction hvs generalizing ps s t with
  | nil =>
    rw [List.zip_nil_right]
    exact h
  | cons v u vs us hv _ ih =>
    cases ps with
    | nil => exact h
    | cons name ps => exact ih (h.set i name hv) ps

end Scopes

/-! ### What code does in aligned tables -/

namespace Alignment

theorem lookup {scope : ScopeId} {name : String} (hscope : A.region scope) (hname : A.kind name) :
    (Eval.lookup scope name).Corresponds A.correspondence () A.correspondence.Values
      (Eval.lookup scope name) := by
  intro _ s t _ hst
  have hvalues := Scopes.Aligned.get hst hscope hname
  unfold Eval.lookup
  generalize s.get scope name = x at hvalues
  generalize t.get scope name = y at hvalues
  match x, y, hvalues with
  | some v, some u, hvalues => exact .done () v u s t trivial hst hvalues
  | none, none, _ => exact .failed () _ s t trivial hst

theorem assign (scope : ScopeId) (name : String) {v u : Value}
    (hv : A.correspondence.Values () v u) :
    (Eval.assign scope name v).Corresponds A.correspondence () (fun _ _ _ => True)
      (Eval.assign scope name u) :=
  fun _ _ _ _ hst => .done () _ _ _ _ trivial (Scopes.Aligned.set hst scope name hv) trivial

theorem opened {outer : ScopeId} (houter : A.region outer) {vs us : List Value}
    (hvs : A.correspondence.Lists () vs us) (ps : List String) :
    (Eval.opened outer (ps.zip vs)).Corresponds A.correspondence ()
      (fun _ i j => j = i ∧ A.region i) (Eval.opened outer (ps.zip us)) := by
  intro _ s t _ hst
  have hsize := Scopes.Aligned.same_size hst
  have hnew := Scopes.Aligned.new hst s.size (Nat.le_refl _)
  have hscopes := (Scopes.Aligned.create hst houter).setAll s.size hvs ps
  refine .done () _ _ _ _ trivial ?_ ⟨hsize, hnew⟩
  rw [hsize]
  exact hscopes

end Alignment

end

end Monkey
