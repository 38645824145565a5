import Monkey.Proofs.SameCode

/-!
# Scopes under other numbers

Scopes are numbered in the order of their creation, and a function knows the
place of its literal. An evaluation does not depend on either: where two tables
of scopes correspond number by number, the same code comes to corresponding
outcomes in both, in scopes that correspond and from places that may. The second
table may have scopes that correspond to none.

A function corresponds to another only if the scope it captures is there. So a
table that corresponds to itself is one in which all links lead somewhere, and it
stays one.
-/

set_option autoImplicit false

namespace Monkey

/-- Another number for every scope, in the same order, and which places of literals correspond. -/
structure Renumbering where
  number : ScopeId → ScopeId
  place : Site → Site → Prop
  increasing : ∀ {i j}, i < j → number i < number j
  child : ∀ {a b} (turn : Nat), place a b → place (a.child turn) (b.child turn)

/-- The same code in corresponding scopes, the first of which is one of `count`. -/
structure Closure.Renumbered (ρ : Renumbering) (count : Nat) (f g : Closure) : Prop where
  params : g.params = f.params
  body : g.body = f.body
  captured : f.scope < count
  scope : g.scope = ρ.number f.scope
  origin : ρ.place f.origin g.origin

structure Scope.Renumbered (ρ : Renumbering) (count : Nat) (a b : Scope) : Prop where
  outer : b.outer = a.outer.map ρ.number
  bound : ∀ name,
    CorrespondingOptions (Closure.Renumbered ρ count) (a.get name) (b.get name)

/-- Every scope of the first table has its counterpart in the second, and the scopes
that both create next will be counterparts as well. -/
structure Scopes.Renumbered (ρ : Renumbering) (s t : Scopes) : Prop where
  next : ∀ k, ρ.number (s.size + k) = t.size + k
  older : ∀ (i : ScopeId) (scope : Scope) (outer : ScopeId), s[i]? = some scope →
    scope.outer = some outer → outer < i
  counterpart : ∀ (i : ScopeId) (scope : Scope), s[i]? = some scope →
    ∃ other, t[ρ.number i]? = some other ∧ scope.Renumbered ρ s.size other

/-- The world counts the scopes of the first table. -/
def Renumbering.correspondence (ρ : Renumbering) : Correspondence Nat where
  later := fun m n => m ≤ n
  refl := Nat.le_refl
  trans := Nat.le_trans
  scopes := fun count s t => s.size = count ∧ s.Renumbered ρ t
  closure := Closure.Renumbered ρ
  mono := fun h hf =>
    ⟨hf.params, hf.body, Nat.lt_of_lt_of_le hf.captured h, hf.scope, hf.origin⟩

section

variable {ρ : Renumbering}

theorem Renumbering.injective {i j : ScopeId} (h : ρ.number i = ρ.number j) : i = j := by
  rcases Nat.lt_trichotomy i j with hlt | heq | hlt
  · exact absurd h (Nat.ne_of_lt (ρ.increasing hlt))
  · exact heq
  · exact absurd h (Nat.ne_of_gt (ρ.increasing hlt))

theorem Scope.Renumbered.mono {m n : Nat} {a b : Scope} (h : a.Renumbered ρ m b) (hmn : m ≤ n) :
    a.Renumbered ρ n b :=
  ⟨h.outer, fun name => (h.bound name).imp fun _ _ => ρ.correspondence.mono hmn⟩

theorem Scope.Renumbered.set {count : Nat} {a b : Scope} {name : String} {v u : Value}
    (h : a.Renumbered ρ count b) (hv : v.Corresponds (Closure.Renumbered ρ count) u) :
    (a.set name v).Renumbered ρ count (b.set name u) := by
  refine ⟨h.outer, fun other => ?_⟩
  by_cases hname : other = name
  · subst hname
    rw [Scope.get_set_self, Scope.get_set_self]
    exact hv
  · rw [Scope.get_set_of_ne _ _ _ _ hname, Scope.get_set_of_ne _ _ _ _ hname]
    exact h.bound other

namespace Scopes.Renumbered

variable {s t : Scopes}

theorem fresh (h : s.Renumbered ρ t) : ρ.number s.size = t.size := h.next 0

theorem get (h : s.Renumbered ρ t) (i : ScopeId) (name : String) :
    CorrespondingOptions (Closure.Renumbered ρ s.size) (s.get i name)
      (t.get (ρ.number i) name) := by
  induction i using Nat.strongRecOn with
  | ind i ih =>
    cases hscope : s[i]? with
    | none =>
      have hi : s.size ≤ i := by simpa using hscope
      have hnumber := h.next (i - s.size)
      rw [Nat.add_sub_cancel' hi] at hnumber
      have hother : t[ρ.number i]? = none := by simp [hnumber]
      rw [get_missing hscope, get_missing hother]
      trivial
    | some scope =>
      obtain ⟨other, hother, halike⟩ := h.counterpart i scope hscope
      have holder : ∀ outer, scope.outer = some outer → (ρ.number outer < ρ.number i ↔ outer < i) :=
        fun outer houter =>
          ⟨fun _ => h.older i scope outer hscope houter, fun hlt => ρ.increasing hlt⟩
      exact get_corresponds hscope hother (halike.bound name) halike.outer holder
        fun outer _ _ hlt => ih outer hlt

theorem set (h : s.Renumbered ρ t) (i : ScopeId) (name : String) {v u : Value}
    (hv : v.Corresponds (Closure.Renumbered ρ s.size) u) :
    (s.set i name v).Renumbered ρ (t.set (ρ.number i) name u) := by
  constructor
  · intro k
    rw [size_set, size_set]
    exact h.next k
  · intro j scope outer hj houter
    obtain ⟨old, hold, rfl | rfl⟩ := set_cases hj
    · exact h.older j scope outer hold houter
    · exact h.older j old outer hold houter
  · intro j scope hj
    rw [size_set]
    by_cases hji : j = i
    · subst hji
      obtain ⟨old, hold, _⟩ := set_cases hj
      obtain ⟨other, hother, halike⟩ := h.counterpart j old hold
      rw [set_self name v hold] at hj
      cases hj
      exact ⟨_, set_self name u hother, halike.set hv⟩
    · rw [set_other s name v hji] at hj
      obtain ⟨other, hother, halike⟩ := h.counterpart j scope hj
      exact ⟨other, by rw [set_other t name u fun heq => hji (Renumbering.injective heq), hother],
        halike⟩

theorem create (h : s.Renumbered ρ t) {outer : Option ScopeId}
    (houter : ∀ i, outer = some i → i < s.size) :
    (s.create outer).Renumbered ρ (t.create (outer.map ρ.number)) := by
  constructor
  · intro k
    have hnext := h.next (1 + k)
    rwa [← Nat.add_assoc, ← Nat.add_assoc, ← size_create s outer,
      ← size_create t (outer.map ρ.number)] at hnext
  · intro j scope o hj ho
    rcases create_cases hj with hold | ⟨rfl, rfl⟩
    · exact h.older j scope o hold ho
    · exact houter o ho
  · intro j scope hj
    rw [size_create]
    rcases create_cases hj with hold | ⟨rfl, rfl⟩
    · obtain ⟨other, hother, halike⟩ := h.counterpart j scope hold
      refine ⟨other, ?_, halike.mono (Nat.le_succ _)⟩
      rw [create_other t _ (Array.getElem?_eq_some_iff.1 hother).1, hother]
    · refine ⟨⟨outer.map ρ.number, []⟩, ?_, rfl, fun name => trivial⟩
      rw [h.fresh]
      exact create_self t _

theorem setAll (h : s.Renumbered ρ t) (i : ScopeId) {vs us : List Value}
    (hvs : ρ.correspondence.Lists s.size vs us) (ps : List String) :
    (s.setAll i (ps.zip vs)).Renumbered ρ (t.setAll (ρ.number i) (ps.zip us)) ∧
      (s.setAll i (ps.zip vs)).size = s.size := by
  generalize hcount : s.size = count at hvs
  induction hvs generalizing ps s t with
  | nil =>
    rw [List.zip_nil_right]
    exact ⟨h, hcount⟩
  | cons v u vs us hv _ ih =>
    subst hcount
    cases ps with
    | nil => exact ⟨h, rfl⟩
    | cons name ps => exact ih (h.set i name hv) ps (size_set s i name v)

end Scopes.Renumbered

/-! ### What code does under other numbers -/

namespace Eval.Corresponds

variable {count : Nat}

theorem lookup (scope : ScopeId) (name : String) :
    (Eval.lookup scope name).Corresponds ρ.correspondence count ρ.correspondence.Values
      (Eval.lookup (ρ.number scope) name) := by
  rintro n s t hn ⟨rfl, hst⟩
  have hvalues := hst.get scope name
  unfold Eval.lookup
  generalize s.get scope name = x at hvalues
  generalize t.get (ρ.number scope) name = y at hvalues
  match x, y, hvalues with
  | some v, some u, hvalues => exact .done _ v u s t (Nat.le_refl _) ⟨rfl, hst⟩ hvalues
  | none, none, _ => exact .failed _ _ s t (Nat.le_refl _) ⟨rfl, hst⟩

theorem assign (scope : ScopeId) (name : String) {v u : Value}
    (hv : ρ.correspondence.Values count v u) :
    (Eval.assign scope name v).Corresponds ρ.correspondence count (fun _ _ _ => True)
      (Eval.assign (ρ.number scope) name u) := by
  rintro n s t hn ⟨rfl, hst⟩
  exact .done _ _ _ _ _ (Nat.le_refl _)
    ⟨size_set s scope name v, hst.set scope name (Correspondence.Values.mono hv hn)⟩ trivial

theorem opened {outer : ScopeId} (houter : outer < count) {vs us : List Value}
    (hvs : ρ.correspondence.Lists count vs us) (ps : List String) :
    (Eval.opened outer (ps.zip vs)).Corresponds ρ.correspondence count
      (fun n i j => i < n ∧ j = ρ.number i) (Eval.opened (ρ.number outer) (ps.zip us)) := by
  rintro n s t hn ⟨rfl, hst⟩
  have hinside : ∀ i, some outer = some i → i < s.size := by
    rintro _ ⟨⟩
    exact Nat.lt_of_lt_of_le houter hn
  have hsize := size_create s (some outer)
  have hmore : count ≤ (s.create (some outer)).size := hsize ▸ Nat.le_succ_of_le hn
  obtain ⟨hscopes, hsame⟩ := (hst.create hinside).setAll s.size (hvs.mono hmore) ps
  rw [hst.fresh] at hscopes
  exact .done (s.size + 1) _ _ _ _ (Nat.le_succ _) ⟨hsame.trans hsize, hscopes⟩
    ⟨Nat.lt_succ_self _, hst.fresh.symm⟩

end Eval.Corresponds

def Positions.renumbered (ρ : Renumbering) : Positions ρ.correspondence where
  here := fun count i a j b => i < count ∧ j = ρ.number i ∧ ρ.place a b
  kind := anyName
  mono := fun hlater hhere => ⟨Nat.lt_of_lt_of_le hhere.1 hlater, hhere.2⟩
  child := fun turn hhere => ⟨hhere.1, hhere.2.1, ρ.child turn hhere.2.2⟩
  lookup := by
    rintro _ i _ _ _ name ⟨_, rfl, _⟩ _
    exact .lookup i name
  assign := by
    rintro _ i _ _ _ name _ _ ⟨_, rfl, _⟩ _ hv
    exact .assign i name hv
  literal := fun hhere _ => ⟨rfl, rfl, hhere.1, hhere.2.1, hhere.2.2⟩

section

variable {call call' : Call}

theorem Expr.renumbered_eval (hcall : ρ.correspondence.Calls call call') (e : Expr)
    (site site' : Site) (scope : ScopeId) (count : Nat) (hscope : scope < count)
    (hsite : ρ.place site site') :
    (e.eval call site scope).Corresponds ρ.correspondence count ρ.correspondence.Values
      (e.eval call' site' (ρ.number scope)) :=
  (Positions.renumbered ρ).eval hcall e count site site' scope _ ⟨hscope, rfl, hsite⟩
    (Expr.names_any e)

theorem Stmt.renumbered_evalAll (hcall : ρ.correspondence.Calls call call') (ss : List Stmt)
    (site site' : Site) (scope : ScopeId) (before before' : Option Value) (count : Nat)
    (hscope : scope < count) (hsite : ρ.place site site')
    (hbefore : ρ.correspondence.Results count before before') :
    (Stmt.evalAll call site scope ss before).Corresponds ρ.correspondence count
      ρ.correspondence.Results (Stmt.evalAll call' site' (ρ.number scope) ss before') :=
  (Positions.renumbered ρ).evalAll hcall ss count site site' scope _ before before'
    ⟨hscope, rfl, hsite⟩ (Stmt.allNames_any ss) hbefore

end

theorem Closure.renumbered_apply (ρ : Renumbering) (limit : Nat) :
    ρ.correspondence.Calls (Closure.apply limit) (Closure.apply limit) := by
  apply Correspondence.calls_apply
  intro call call' hcall count f g vs us hf hvs
  apply Correspondence.enter (congrArg List.length hf.params) hvs
  · intro _
    rw [hf.params, hf.scope]
    exact .opened hf.captured hvs f.params
  · rintro n i _ _ ⟨hi, rfl⟩
    rw [hf.body]
    exact Stmt.renumbered_evalAll hcall f.body _ _ i none none n hi (ρ.child 0 hf.origin) trivial

theorem Program.renumbered_eval (limit : Nat) (p : Program) {number number' : Nat}
    {scope : ScopeId} {count : Nat} (hscope : scope < count)
    (hplace : ρ.place ⟨number, []⟩ ⟨number', []⟩) :
    (p.eval limit number scope).Corresponds ρ.correspondence count ρ.correspondence.Results
      (p.eval limit number' (ρ.number scope)) :=
  Program.corresponds (Stmt.renumbered_evalAll (Closure.renumbered_apply ρ limit) p _ _ scope none
    none count hscope hplace trivial)

end

end Monkey
