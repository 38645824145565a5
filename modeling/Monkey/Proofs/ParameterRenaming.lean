import Mathlib
import Monkey.Syntax.Renaming
import Monkey.Proofs.Correspondence
import Monkey.Proofs.ScopeGraph

/-!
# Parameters under other names

A program does not show how the parameters of its function literals are called,
as long as the new name of a parameter does not occur in the program. With and
without the new name, evaluation goes on in step: the scopes are the same, except
that the scopes of calls inside of a chosen literal bind the new name where the
others bind the old one. These scopes are marked.

What keeps the marked scopes and the others apart is that the old name is always
found before a look-up leaves the marked ones, since the call of the chosen
literal itself has bound it.
-/

set_option autoImplicit false

namespace Monkey

/-- Code is renamed if the new name does not occur in it, or stays as it is outside of the
chosen literals. -/
inductive Renaming.Applies (r : Renaming) : Bool → Renaming → (String → Prop) → Prop where
  | fresh (inside : Bool) : Applies r inside r fun name => name ≠ r.new
  | nowhere : Applies r false r.nowhere anyName

/-- The same function under other names, which captures a scope that has a mark. -/
structure Closure.Renamed (r : Renaming) (marks : List Bool) (f g : Closure) : Prop where
  scope : g.scope = f.scope
  origin : g.origin = f.origin
  code : ∃ (inside : Bool) (r' : Renaming) (kind : String → Prop),
    marks[f.scope]? = some inside ∧ r.Applies inside r' kind ∧
    (Expr.fn f.params f.body).Names kind ∧
    Expr.fn g.params g.body = (Expr.fn f.params f.body).rename r' inside f.origin

structure Scope.Renamed (r : Renaming) (marks : List Bool) (inside : Bool) (a b : Scope) :
    Prop where
  outer : b.outer = a.outer
  bound : ∀ name, (inside = true → name ≠ r.new) →
    CorrespondingOptions (Closure.Renamed r marks) (a.get name) (b.get (r.name inside name))

/-- Every scope has a mark, and what is inside of a marked scope is marked. -/
structure Scopes.Renamed (r : Renaming) (marks : List Bool) (s t : Scopes) : Prop where
  size : s.size = marks.length
  same_size : t.size = s.size
  older : ∀ (i : ScopeId) (a : Scope) (outer : ScopeId), s[i]? = some a →
    a.outer = some outer → outer < i
  nested : ∀ (i : ScopeId) (a : Scope) (outer : ScopeId), s[i]? = some a →
    a.outer = some outer → marks[outer]? = some true → marks[i]? = some true
  counterpart : ∀ (i : ScopeId) (a : Scope), s[i]? = some a →
    ∃ b inside, t[i]? = some b ∧ marks[i]? = some inside ∧ a.Renamed r marks inside b

/-- If the scope is marked, then it binds the old name, or the scope around it is marked. -/
def Scopes.Anchored (r : Renaming) (marks : List Bool) (s : Scopes) (i : ScopeId) : Prop :=
  ∀ a, s[i]? = some a → marks[i]? = some true →
    (a.get r.old).isSome = true ∨ ∃ outer, a.outer = some outer ∧ marks[outer]? = some true

theorem mark_later {marks more : List Bool} (h : marks <+: more) {i : Nat} {inside : Bool}
    (hi : marks[i]? = some inside) : more[i]? = some inside := by
  obtain ⟨rest, rfl⟩ := h
  rw [List.getElem?_append_left (List.getElem?_eq_some_iff.1 hi).1, hi]

def Renaming.correspondence (r : Renaming) : Correspondence (List Bool) where
  later := fun marks more => marks <+: more
  refl := List.prefix_refl
  trans := List.IsPrefix.trans
  scopes := fun marks s t => s.Renamed r marks t ∧ ∀ i, s.Anchored r marks i
  closure := Closure.Renamed r
  mono := by
    rintro marks more f g h ⟨hscope, horigin, inside, r', kind, hmark, hcode⟩
    exact ⟨hscope, horigin, inside, r', kind, mark_later h hmark, hcode⟩

section

variable {r r' : Renaming} {inside : Bool} {kind : String → Prop} {marks more : List Bool}

namespace Renaming.Applies

theorem name_eq (h : r.Applies inside r' kind) (name : String) :
    r'.name inside name = r.name inside name := by
  cases h with
  | fresh => rfl
  | nowhere => rfl

theorem old_eq (h : r.Applies inside r' kind) : r'.old = r.old := by
  cases h with
  | fresh => rfl
  | nowhere => rfl

theorem ne_new (h : r.Applies inside r' kind) {name : String} (hname : kind name) :
    inside = true → name ≠ r.new := by
  cases h with
  | fresh => exact fun _ => hname
  | nowhere => exact fun hinside => nomatch hinside

theorem enters (h : r.Applies inside r' kind) (site : Site) (params : List String) :
    r.Applies (r'.enters inside site params) r' kind := by
  cases h with
  | fresh => exact .fresh _
  | nowhere => exact .nowhere

end Renaming.Applies

theorem Scope.Renamed.mono {a b : Scope} (h : a.Renamed r marks inside b) (hmore : marks <+: more) :
    a.Renamed r more inside b :=
  ⟨h.outer, fun name hname => (h.bound name hname).imp fun _ _ => r.correspondence.mono hmore⟩

theorem Scope.Renamed.set {a b : Scope} {name : String} {v u : Value}
    (h : a.Renamed r marks inside b) (hname : inside = true → name ≠ r.new)
    (hv : v.Corresponds (Closure.Renamed r marks) u) :
    (a.set name v).Renamed r marks inside (b.set (r.name inside name) u) := by
  refine ⟨h.outer, fun other hother => ?_⟩
  by_cases heq : other = name
  · subst heq
    rw [Scope.get_set_self, Scope.get_set_self]
    exact hv
  · have hne : r.name inside other ≠ r.name inside name :=
      fun h => heq (Renaming.name_injective hother hname h)
    rw [Scope.get_set_of_ne _ _ _ _ heq, Scope.get_set_of_ne _ _ _ _ hne]
    exact h.bound other hother

namespace Scopes

variable {s t : Scopes} {i : ScopeId}

theorem Renamed.marked (h : s.Renamed r marks t) {a : Scope} (ha : s[i]? = some a) :
    i < marks.length :=
  h.size ▸ (Array.getElem?_eq_some_iff.1 ha).1

theorem Renamed.present (h : s.Renamed r marks t) (hmark : marks[i]? = some inside) :
    ∃ a, s[i]? = some a := by
  have hi : i < s.size := by
    rw [h.size]
    exact (List.getElem?_eq_some_iff.1 hmark).1
  exact ⟨s[i], Array.getElem?_eq_getElem hi⟩

theorem Renamed.set (h : s.Renamed r marks t) (hmark : marks[i]? = some inside) {name : String}
    (hname : inside = true → name ≠ r.new) {v u : Value}
    (hv : v.Corresponds (Closure.Renamed r marks) u) :
    (s.set i name v).Renamed r marks (t.set i (r.name inside name) u) := by
  have hold : ∀ {j : ScopeId} {a : Scope}, (s.set i name v)[j]? = some a →
      ∃ old, s[j]? = some old ∧ a.outer = old.outer := by
    intro j a ha
    obtain ⟨old, hold, rfl | rfl⟩ := set_cases ha
    · exact ⟨a, hold, rfl⟩
    · exact ⟨old, hold, rfl⟩
  constructor
  · rw [size_set, h.size]
  · rw [size_set, size_set, h.same_size]
  · intro j a outer ha houter
    obtain ⟨old, hold, hsame⟩ := hold ha
    exact h.older j old outer hold (hsame ▸ houter)
  · intro j a outer ha houter
    obtain ⟨old, hold, hsame⟩ := hold ha
    exact h.nested j old outer hold (hsame ▸ houter)
  · intro j a ha
    by_cases hji : j = i
    · subst hji
      obtain ⟨old, hold, _⟩ := set_cases ha
      obtain ⟨b, inside', hb, hmark', halike⟩ := h.counterpart j old hold
      obtain rfl : inside = inside' := Option.some.inj (hmark.symm.trans hmark')
      rw [set_self name v hold] at ha
      cases ha
      exact ⟨_, inside, set_self _ u hb, hmark, halike.set hname hv⟩
    · rw [set_other s name v hji] at ha
      obtain ⟨b, inside', hb, hmark', halike⟩ := h.counterpart j a ha
      exact ⟨b, inside', by rw [set_other t _ u hji, hb], hmark', halike⟩

theorem Renamed.create (h : s.Renamed r marks t) {outer : ScopeId} {inner : Bool}
    (hmark : marks[outer]? = some inside) (hinner : inside = true → inner = true) :
    (s.create (some outer)).Renamed r (marks ++ [inner]) (t.create (some outer)) := by
  have hlater : marks <+: marks ++ [inner] := List.prefix_append _ _
  have hnew : (marks ++ [inner])[s.size]? = some inner := by simp [h.size]
  constructor
  · simp [size_create, h.size]
  · rw [size_create, size_create, h.same_size]
  · intro j a o ha ho
    rcases create_cases ha with hold | ⟨rfl, rfl⟩
    · exact h.older j a o hold ho
    · cases ho
      rw [h.size]
      exact (List.getElem?_eq_some_iff.1 hmark).1
  · intro j a o ha ho hmarked
    rcases create_cases ha with hold | ⟨rfl, rfl⟩
    · have ho' : o < marks.length := Nat.lt_trans (h.older j a o hold ho) (h.marked hold)
      rw [List.getElem?_append_left ho'] at hmarked
      exact mark_later hlater (h.nested j a o hold ho hmarked)
    · cases ho
      rw [mark_later hlater hmark] at hmarked
      rw [hnew, hinner (Option.some.inj hmarked)]
  · intro j a ha
    rcases create_cases ha with hold | ⟨rfl, rfl⟩
    · obtain ⟨b, inside', hb, hmark', halike⟩ := h.counterpart j a hold
      refine ⟨b, inside', ?_, mark_later hlater hmark', halike.mono hlater⟩
      rw [create_other t _ (Array.getElem?_eq_some_iff.1 hb).1, hb]
    · refine ⟨⟨some outer, []⟩, inner, ?_, hnew, rfl, fun name _ => trivial⟩
      rw [← h.same_size]
      exact create_self t _

/-! ### The old name stays inside -/

theorem Anchored.set (h : s.Anchored r marks i) (j : ScopeId) (name : String) (v : Value) :
    (s.set j name v).Anchored r marks i := by
  intro a ha hmark
  obtain ⟨old, hold, rfl | rfl⟩ := set_cases ha
  · exact h a hold hmark
  · refine (h old hold hmark).imp_left fun hbound => ?_
    by_cases hname : r.old = name
    · rw [hname, Scope.get_set_self]
      rfl
    · rwa [Scope.get_set_of_ne _ _ _ _ hname]

theorem anchored_set_old (s : Scopes) (i : ScopeId) (v : Value) :
    (s.set i r.old v).Anchored r marks i := by
  intro a ha _
  obtain ⟨old, hold, _⟩ := set_cases ha
  rw [set_self r.old v hold] at ha
  cases ha
  left
  rw [Scope.get_set_self]
  rfl

theorem Renamed.anchored_create (h : s.Renamed r marks t) (hanchored : ∀ i, s.Anchored r marks i)
    {outer : ScopeId} {inner : Bool}
    (hnew : i = s.size → inner = true → marks[outer]? = some true) :
    (s.create (some outer)).Anchored r (marks ++ [inner]) i := by
  have hlater : marks <+: marks ++ [inner] := List.prefix_append _ _
  intro a ha hmark
  rcases create_cases ha with hold | ⟨rfl, rfl⟩
  · rw [List.getElem?_append_left (h.marked hold)] at hmark
    refine (hanchored i a hold hmark).imp_right ?_
    rintro ⟨o, ho, hmarked⟩
    exact ⟨o, ho, mark_later hlater hmarked⟩
  · have hinner : inner = true := by simpa [h.size] using hmark
    exact .inr ⟨outer, rfl, mark_later hlater (hnew rfl hinner)⟩

theorem Renamed.isSome_get_old (h : s.Renamed r marks t) (hanchored : ∀ i, s.Anchored r marks i)
    (hmark : marks[i]? = some true) : (s.get i r.old).isSome = true := by
  induction i using Nat.strongRecOn with
  | ind i ih =>
    obtain ⟨a, ha⟩ := h.present hmark
    cases hv : a.get r.old with
    | some v =>
      rw [get_bound ha hv]
      rfl
    | none =>
      have hanchor := hanchored i a ha hmark
      rw [hv] at hanchor
      obtain ⟨outer, houter, hmarked⟩ := hanchor.resolve_left (by decide)
      have holder := h.older i a outer ha houter
      rw [get_outward ha hv houter holder]
      exact ih outer holder hmarked

/-- A look-up that goes on outward does so under the same name: a marked scope that does not
bind the old name is in a marked one, and no scope without a mark is. -/
theorem Renamed.name_outward (h : s.Renamed r marks t) (hanchored : ∀ i, s.Anchored r marks i)
    (hmark : marks[i]? = some inside) {a : Scope} (ha : s[i]? = some a) {outer : ScopeId}
    (houter : a.outer = some outer) {name : String} (hfree : a.get name = none) :
    ∃ around, marks[outer]? = some around ∧ (around = true → inside = true) ∧
      r.name around name = r.name inside name := by
  have hlt : outer < marks.length := Nat.lt_trans (h.older i a outer ha houter) (h.marked ha)
  have hmarked : marks[outer]? = some marks[outer] := List.getElem?_eq_getElem hlt
  have hnested := h.nested i a outer ha houter
  rw [hmarked, hmark] at hnested
  have hinner : marks[outer] = true → inside = true := fun hout =>
    Option.some.inj (hnested (congrArg some hout))
  refine ⟨marks[outer], hmarked, hinner, ?_⟩
  by_cases hname : name = r.old
  · subst hname
    have hback : inside = true → marks[outer] = true := by
      rintro rfl
      rcases hanchored i a ha hmark with hbound | ⟨o, ho, hout⟩
      · rw [hfree] at hbound
        cases hbound
      · obtain rfl : outer = o := Option.some.inj (houter.symm.trans ho)
        exact Option.some.inj (hmarked.symm.trans hout)
    rw [Bool.eq_iff_iff.2 ⟨hinner, hback⟩]
  · rw [Renaming.name_of_ne hname, Renaming.name_of_ne hname]

theorem Renamed.get (h : s.Renamed r marks t) (hanchored : ∀ i, s.Anchored r marks i)
    (hmark : marks[i]? = some inside) {name : String} (hname : inside = true → name ≠ r.new) :
    CorrespondingOptions (Closure.Renamed r marks) (s.get i name)
      (t.get i (r.name inside name)) := by
  induction i using Nat.strongRecOn generalizing inside with
  | ind i ih =>
    obtain ⟨a, ha⟩ := h.present hmark
    obtain ⟨b, inside', hb, hmark', halike⟩ := h.counterpart i a ha
    obtain rfl : inside = inside' := Option.some.inj (hmark.symm.trans hmark')
    have houter : b.outer = a.outer.map id := by rw [Option.map_id, halike.outer, id]
    refine get_corresponds ha hb (halike.bound name hname) houter (fun _ _ => Iff.rfl) ?_
    intro outer hout hfree holder
    obtain ⟨around, hmarked, hinner, hsame⟩ := h.name_outward hanchored hmark ha hout hfree
    rw [← hsame]
    exact ih outer holder hmarked fun haround => hname (hinner haround)

end Scopes

namespace Scopes

variable {s t : Scopes} {i : ScopeId}

theorem Renamed.setAll (h : s.Renamed r marks t) (hmark : marks[i]? = some inside)
    {vs us : List Value} (hvs : r.correspondence.Lists marks vs us) {ps : List String}
    (hps : ∀ name ∈ ps, inside = true → name ≠ r.new) :
    (s.setAll i (ps.zip vs)).Renamed r marks
      (t.setAll i ((ps.map (r.name inside)).zip us)) := by
  induction hvs generalizing ps s t with
  | nil =>
    rw [List.zip_nil_right, List.zip_nil_right]
    exact h
  | cons v u vs us hv _ ih =>
    cases ps with
    | nil => exact h
    | cons name ps =>
      obtain ⟨hname, hrest⟩ := List.forall_mem_cons.1 hps
      exact ih (h.set hmark hname hv) hrest

theorem anchored_setAll {bindings : List (String × Value)} (j : ScopeId)
    (h : s.Anchored r marks i ∨ i = j ∧ r.old ∈ bindings.map Prod.fst) :
    (s.setAll j bindings).Anchored r marks i := by
  induction bindings generalizing s with
  | nil => exact h.resolve_right fun h => nomatch h.2
  | cons binding rest ih =>
    obtain ⟨name, v⟩ := binding
    apply ih
    rcases h with h | ⟨rfl, hmem⟩
    · exact .inl (h.set j name v)
    · rcases List.mem_cons.1 hmem with hname | hmem
      · left
        rw [← show r.old = name from hname]
        exact anchored_set_old s i v
      · exact .inr ⟨rfl, hmem⟩

end Scopes

/-! ### Evaluation in step -/

theorem Eval.renamed_lookup {scope : ScopeId} (hmark : marks[scope]? = some inside) {name : String}
    (hname : inside = true → name ≠ r.new) :
    (Eval.lookup scope name).Corresponds r.correspondence marks r.correspondence.Values
      (Eval.lookup scope (r.name inside name)) := by
  rintro more s t hmore ⟨hst, hanchored⟩
  have hmark := mark_later hmore hmark
  have hvalues := hst.get hanchored hmark hname
  -- a name that is not found is none that becomes another
  have herror : s.get scope name = none → r.name inside name = name := by
    intro hnone
    cases inside with
    | false => rfl
    | true =>
      apply Renaming.name_of_ne
      rintro rfl
      have hfound := hst.isSome_get_old hanchored hmark
      rw [hnone] at hfound
      cases hfound
  unfold Eval.lookup
  cases hv : s.get scope name with
  | none =>
    rw [hv] at hvalues
    rw [hvalues.eq_none, herror hv]
    exact .failed more _ s t (List.prefix_refl _) ⟨hst, hanchored⟩
  | some v =>
    rw [hv] at hvalues
    obtain ⟨u, hu, hvu⟩ := hvalues.exists_some
    rw [hu]
    exact .done more v u s t (List.prefix_refl _) ⟨hst, hanchored⟩ hvu

theorem Eval.renamed_assign {scope : ScopeId} (hmark : marks[scope]? = some inside) {name : String}
    (hname : inside = true → name ≠ r.new) {v u : Value}
    (hv : r.correspondence.Values marks v u) :
    (Eval.assign scope name v).Corresponds r.correspondence marks (fun _ _ _ => True)
      (Eval.assign scope (r.name inside name) u) := by
  rintro more s t hmore ⟨hst, hanchored⟩
  have hset := hst.set (mark_later hmore hmark) hname (Correspondence.Values.mono hv hmore)
  exact .done more _ _ _ _ (List.prefix_refl _)
    ⟨hset, fun i => (hanchored i).set scope name v⟩ trivial

section

variable {call call' : Call}

mutual

theorem Expr.renamed_eval (hcall : r.correspondence.Calls call call')
    (happlies : r.Applies inside r' kind) : (e : Expr) → (site : Site) → (scope : ScopeId) →
    (marks : List Bool) →
    marks[scope]? = some inside → e.Names kind →
    (e.eval call site scope).Corresponds r.correspondence marks r.correspondence.Values
      ((e.rename r' inside site).eval call' site scope)
  | .ident name, site, scope, marks, hmark, he => by
    rw [Expr.rename, happlies.name_eq]
    exact Eval.renamed_lookup hmark (happlies.ne_new he)
  | .int value, site, scope, marks, hmark, he => .pure fun _ _ => .int value
  | .bool value, site, scope, marks, hmark, he => .pure fun _ _ => .bool value
  | .prefixOp o e, site, scope, marks, hmark, he => by
    apply (Expr.renamed_eval hcall happlies e _ scope marks hmark he).operand
    intro v u more hmore hv
    exact .applyPrefix o hv
  | .infixOp o e f, site, scope, marks, hmark, he => by
    apply (Expr.renamed_eval hcall happlies e _ scope marks hmark he.1).operand
    intro v u more hmore hv
    have hmark := mark_later hmore hmark
    apply (Expr.renamed_eval hcall happlies f _ scope more hmark he.2).operand
    intro x y later hlater hx
    exact .applyInfix o (hv.mono hlater) hx
  | .cond c a none, site, scope, marks, hmark, he => by
    apply (Expr.renamed_eval hcall happlies c _ scope marks hmark he.1).operand
    intro v u more hmore hv
    have hmark := mark_later hmore hmark
    rw [hv.truthy]
    split
    · exact (Stmt.renamed_evalAll hcall happlies a _ scope none none more hmark he.2
        trivial).block
    · exact .pure fun _ _ => .null
  | .cond c a (some b), site, scope, marks, hmark, he => by
    apply (Expr.renamed_eval hcall happlies c _ scope marks hmark he.1).operand
    intro v u more hmore hv
    have hmark := mark_later hmore hmark
    rw [hv.truthy]
    split
    · exact (Stmt.renamed_evalAll hcall happlies a _ scope none none more hmark he.2.1
        trivial).block
    · exact (Stmt.renamed_evalAll hcall happlies b _ scope none none more hmark he.2.2
        trivial).block
  | .fn ps body, site, scope, marks, hmark, he =>
    .pure fun _ hmore => .function _ _
      ⟨rfl, rfl, inside, r', kind, mark_later hmore hmark, happlies, he, rfl⟩
  | .call f es, site, scope, marks, hmark, he => by
    apply (Expr.renamed_eval hcall happlies f _ scope marks hmark he.1).operand
    intro v u more hmore hv
    have hmark := mark_later hmore hmark
    cases hv with
    | function f g hf =>
      apply Expr.renamed_evalAll hcall happlies es _ scope _ _ more hmark he.2
      intro vs us later hlater hvs
      exact hcall later f g vs us (r.correspondence.mono hlater hf) hvs
    | _ => exact .fail _

theorem Expr.renamed_evalAll (hcall : r.correspondence.Calls call call')
    (happlies : r.Applies inside r' kind) : (es : List Expr) → (site : Site) →
    (scope : ScopeId) → (next next' : List Value → Eval Value) → (marks : List Bool) →
    marks[scope]? = some inside → Expr.AllNames kind es →
    (∀ vs us more, marks <+: more → r.correspondence.Lists more vs us →
      (next vs).Corresponds r.correspondence more r.correspondence.Values (next' us)) →
    (Expr.evalAll call site scope es next).Corresponds r.correspondence marks
      r.correspondence.Values
      (Expr.evalAll call' site scope (Expr.renameAll r' inside site es) next')
  | [], site, scope, next, next', marks, hmark, he, hnext =>
    hnext [] [] marks (List.prefix_refl _) .nil
  | e :: es, site, scope, next, next', marks, hmark, he, hnext => by
    apply (Expr.renamed_eval hcall happlies e _ scope marks hmark he.1).operand
    intro v u more hmore hv
    have hmark := mark_later hmore hmark
    apply Expr.renamed_evalAll hcall happlies es _ scope _ _ more hmark he.2
    intro vs us later hlater hvs
    exact hnext _ _ later (hmore.trans hlater) (.cons v u vs us (hv.mono hlater) hvs)

theorem Stmt.renamed_eval (hcall : r.correspondence.Calls call call')
    (happlies : r.Applies inside r' kind) : (s : Stmt) → (site : Site) → (scope : ScopeId) →
    (marks : List Bool) →
    marks[scope]? = some inside → s.Names kind →
    (s.eval call site scope).Corresponds r.correspondence marks r.correspondence.Results
      ((s.rename r' inside site).eval call' site scope)
  | .bind name e, site, scope, marks, hmark, hs => by
    rw [Stmt.rename, happlies.name_eq]
    apply (Expr.renamed_eval hcall happlies e _ scope marks hmark hs.2).bound
    intro v u more hmore hv
    exact Eval.renamed_assign (mark_later hmore hmark) (happlies.ne_new hs.1) hv
  | .ret none, site, scope, marks, hmark, hs => .pure fun _ _ => .returned _ _ .null
  | .ret (some e), site, scope, marks, hmark, hs => by
    apply (Expr.renamed_eval hcall happlies e _ scope marks hmark hs).bind
    intro v u more hmore hv
    exact .pure fun later hlater => .returned v u (hv.mono hlater)
  | .expr e, site, scope, marks, hmark, hs => by
    apply (Expr.renamed_eval hcall happlies e _ scope marks hmark hs).bind
    intro v u more hmore hv
    exact .pure fun later hlater => hv.mono hlater
  | .block body, site, scope, marks, hmark, hs =>
    Stmt.renamed_evalAll hcall happlies body _ scope none none marks hmark hs trivial

theorem Stmt.renamed_evalAll (hcall : r.correspondence.Calls call call')
    (happlies : r.Applies inside r' kind) : (ss : List Stmt) → (site : Site) →
    (scope : ScopeId) → (before before' : Option Value) → (marks : List Bool) →
    marks[scope]? = some inside → Stmt.AllNames kind ss →
    r.correspondence.Results marks before before' →
    (Stmt.evalAll call site scope ss before).Corresponds r.correspondence marks
      r.correspondence.Results
      (Stmt.evalAll call' site scope (Stmt.renameAll r' inside site ss) before')
  | [], site, scope, before, before', marks, hmark, hss, hbefore =>
    .pure fun _ hmore => hbefore.mono hmore
  | s :: ss, site, scope, before, before', marks, hmark, hss, hbefore => by
    apply (Stmt.renamed_eval hcall happlies s _ scope marks hmark hss.1).statement
    intro q p more hmore _ hq
    exact Stmt.renamed_evalAll hcall happlies ss (site.child 1) scope q p more
      (mark_later hmore hmark) hss.2 hq

end

/-! ### Calls -/

/-- The scope of a call of a literal is marked if the literal is chosen or inside of a chosen
one. If it is chosen itself, then its parameters anchor the scope. -/
theorem Eval.renamed_opened (happlies : r.Applies inside r' kind) {outer : ScopeId} {site : Site}
    (hmark : marks[outer]? = some inside) {ps : List String} (hps : ∀ name ∈ ps, kind name)
    {vs us : List Value} (hvs : r.correspondence.Lists marks vs us)
    (hlength : ps.length = vs.length) :
    (Eval.opened outer (ps.zip vs)).Corresponds r.correspondence marks
      (fun more i j => i = j ∧ more[i]? = some (r'.enters inside site ps))
      (Eval.opened outer ((ps.map (r'.name (r'.enters inside site ps))).zip us)) := by
  rintro more s t hmore ⟨hst, hanchored⟩
  generalize hinner : r'.enters inside site ps = inner
  have happlies' : r.Applies inner r' kind := hinner ▸ happlies.enters site ps
  have hlater : more <+: more ++ [inner] := List.prefix_append _ _
  have hmark := mark_later hmore hmark
  have hnew : (more ++ [inner])[s.size]? = some inner := by simp [hst.size]
  have hcreated : (s.create (some outer)).Renamed r (more ++ [inner]) (t.create (some outer)) :=
    hst.create hmark fun hinside => by rw [← hinner, Renaming.enters, hinside, Bool.true_or]
  have hnames : ps.map (r'.name inner) = ps.map (r.name inner) :=
    List.map_congr_left fun name _ => happlies'.name_eq name
  have hbound := hcreated.setAll hnew (hvs.mono (hmore.trans hlater)) fun name hname =>
    happlies'.ne_new (hps name hname)
  have hanchor : ∀ i,
      ((s.create (some outer)).setAll s.size (ps.zip vs)).Anchored r (more ++ [inner]) i := by
    intro i
    apply Scopes.anchored_setAll
    by_cases hi : i = s.size
    · cases hinside : inner with
      | false =>
        rw [hinside] at hinner
        exact .inl (hst.anchored_create hanchored fun _ hmarked => nomatch hmarked)
      | true =>
        rw [hinside, Renaming.enters, Bool.or_eq_true, Bool.and_eq_true] at hinner
        rcases hinner with houter | ⟨_, hold⟩
        · exact .inl (hst.anchored_create hanchored fun _ _ => houter ▸ hmark)
        · right
          rw [List.map_fst_zip (Nat.le_of_eq hlength), ← happlies.old_eq]
          exact ⟨hi, by simpa using hold⟩
    · exact .inl (hst.anchored_create hanchored fun heq => absurd heq hi)
  refine .done (more ++ [inner]) _ _ _ _ hlater ⟨?_, hanchor⟩ ⟨hst.same_size.symm, hnew⟩
  rw [hnames, hst.same_size]
  exact hbound

theorem Closure.renamed_apply (r : Renaming) (limit : Nat) :
    r.correspondence.Calls (Closure.apply limit) (Closure.apply limit) := by
  apply Correspondence.calls_apply
  rintro call call' hcall marks f g vs us
    ⟨hscope, horigin, inside, r', kind, hmark, happlies, hnames, hcode⟩ hvs
  obtain ⟨hps, hbody⟩ := Expr.fn.inj hcode
  apply Correspondence.enter (hps ▸ List.length_map _) hvs
  · intro hlength
    rw [hscope, hps]
    exact Eval.renamed_opened happlies hmark hnames.1 hvs hlength
  · rintro more scope _ _ ⟨rfl, hmarked⟩
    rw [horigin, hbody]
    exact Stmt.renamed_evalAll hcall (happlies.enters f.origin f.params) f.body _ scope none none
      more hmarked hnames.2 trivial

theorem Program.renamed_eval (r : Renaming) (limit number : Nat) {p : Program}
    (hp : Stmt.AllNames (fun name => name ≠ r.new) p) {scope : ScopeId}
    (hmark : marks[scope]? = some false) :
    (p.eval limit number scope).Corresponds r.correspondence marks r.correspondence.Results
      ((p.rename r number).eval limit number scope) :=
  Program.corresponds (Stmt.renamed_evalAll (Closure.renamed_apply r limit) (.fresh false) p _
    scope none none marks hmark hp trivial)

end

/-! ### From equal scopes on -/

theorem Value.Linked.renamed (r : Renaming) {count : Nat} {v : Value} (h : v.Linked count) :
    v.Corresponds (Closure.Renamed r (List.replicate count false)) v := by
  apply Value.corresponds_self
  intro f hf
  have hmark : (List.replicate count false)[f.scope]? = some false :=
    List.getElem?_replicate_of_lt (h.captured hf)
  exact ⟨rfl, rfl, false, r.nowhere, anyName, hmark, .nowhere, Expr.names_any _,
    (Expr.rename_nowhere r _ _).symm⟩

theorem Scopes.Linked.renamed {s : Scopes} (h : s.Linked) (r : Renaming) :
    s.Renamed r (List.replicate s.size false) s ∧
      ∀ i, s.Anchored r (List.replicate s.size false) i := by
  have hmark : ∀ {i : ScopeId}, (List.replicate s.size false)[i]? ≠ some true := by
    intro i hi
    exact nomatch List.eq_of_mem_replicate (List.mem_of_getElem? hi)
  refine ⟨⟨by simp, rfl, h.older, fun _ _ _ _ _ hi => absurd hi hmark, fun i a ha => ?_⟩,
    fun i a _ hi => absurd hi hmark⟩
  have hi : i < s.size := (Array.getElem?_eq_some_iff.1 ha).1
  refine ⟨a, false, ha, List.getElem?_replicate_of_lt hi, rfl, fun name _ => ?_⟩
  rw [Renaming.name_outside]
  cases hv : a.get name with
  | none => trivial
  | some v => exact (h.captured i a name v ha hv).renamed r

end

/-- Both capture the same scope and come from the same place, and the code is the same, or
what the renaming makes of it inside of a chosen literal or outside. -/
structure Closure.Alike (r : Renaming) (f g : Closure) : Prop where
  scope : g.scope = f.scope
  origin : g.origin = f.origin
  code : g = f ∨
    ∃ inside, Expr.fn g.params g.body = (Expr.fn f.params f.body).rename r inside f.origin

theorem Closure.Renamed.alike {r : Renaming} {marks : List Bool} {f g : Closure}
    (h : f.Renamed r marks g) : f.Alike r g := by
  obtain ⟨hscope, horigin, inside, r', kind, _, happlies, _, hcode⟩ := h
  refine ⟨hscope, horigin, ?_⟩
  cases happlies with
  | fresh => exact .inr ⟨inside, hcode⟩
  | nowhere =>
    rw [Expr.rename_nowhere] at hcode
    obtain ⟨hparams, hbody⟩ := Expr.fn.inj hcode
    obtain ⟨params, body, scope, origin⟩ := g
    cases hscope
    cases horigin
    cases hparams
    cases hbody
    exact .inl rfl

/-- The same error, or the same value except for what functions are called by inside. -/
inductive Reply.Alike (r : Renaming) : Reply → Reply → Prop where
  | failed (e : EvalError) : Alike r (.failed e) (.failed e)
  | finished (v u : Option Value) (h : CorrespondingOptions (Closure.Alike r) v u) :
      Alike r (.finished v) (.finished u)

theorem Scopes.Renamed.alike_outside {r : Renaming} {marks : List Bool} {s t : Scopes}
    (h : s.Renamed r marks t) (hanchored : ∀ i, s.Anchored r marks i) {i : ScopeId}
    (hmark : marks[i]? = some false) :
    (∀ name, CorrespondingOptions (Closure.Alike r) (s.get i name) (t.get i name)) ∧
    ∃ a b, s[i]? = some a ∧ t[i]? = some b ∧ b.outer = a.outer ∧
      ∀ name, CorrespondingOptions (Closure.Alike r) (a.get name) (b.get name) := by
  obtain ⟨a, ha⟩ := h.present hmark
  obtain ⟨b, inside, hb, hinside, hscopes⟩ := h.counterpart i a ha
  obtain rfl : false = inside := Option.some.inj (hmark.symm.trans hinside)
  refine ⟨fun name => ?_, a, b, ha, hb, hscopes.outer, fun name => ?_⟩
  · exact (h.get hanchored hmark fun h => nomatch h).imp fun _ _ => Closure.Renamed.alike
  · exact (hscopes.bound name fun h => nomatch h).imp fun _ _ => Closure.Renamed.alike

/-- If the new name does not occur in a program, then giving it to parameters of function
literals, in the whole of these literals, does not change what the program does, in whatever
session and scope it is evaluated: it comes to the same value or the same error or to no end,
functions being the same up to the renaming, and the scope binds the same in the end. -/
theorem parameter_renaming_unobserved (r : Renaming) {session : Session}
    (hlinked : session.scopes.Linked) {scope : ScopeId} (hscope : scope < session.scopes.size)
    {p : Program} (hp : Stmt.AllNames (fun name => name ≠ r.new) p) (limit : Nat) :
    (session.evaluate limit p scope = none ∧
      session.evaluate limit (p.rename r session.programs) scope = none) ∨
    ∃ reply reply' later later',
      session.evaluate limit p scope = some (reply, later) ∧
      session.evaluate limit (p.rename r session.programs) scope = some (reply', later') ∧
      reply.Alike r reply' ∧
      (∀ name, CorrespondingOptions (Closure.Alike r)
        (later.get scope name) (later'.get scope name)) ∧
      ∃ a b, later.scopes[scope]? = some a ∧ later'.scopes[scope]? = some b ∧
        b.outer = a.outer ∧
        ∀ name, CorrespondingOptions (Closure.Alike r) (a.get name) (b.get name) := by
  have hmark : (List.replicate session.scopes.size false)[scope]? = some false :=
    List.getElem?_replicate_of_lt hscope
  have hrun := Program.renamed_eval r limit session.programs hp hmark _ _ _
    (List.prefix_refl _) (hlinked.renamed r)
  unfold Session.evaluate
  generalize p.eval limit session.programs scope session.scopes = outcome at hrun
  generalize (p.rename r session.programs).eval limit session.programs scope session.scopes =
    outcome' at hrun
  cases hrun with
  | done marks v u s t hlater hscopes hvalue =>
    have halike : CorrespondingOptions (Closure.Alike r) v u :=
      hvalue.imp fun _ _ => Closure.Renamed.alike
    obtain ⟨hget, hown⟩ := hscopes.1.alike_outside hscopes.2 (mark_later hlater hmark)
    exact .inr ⟨_, _, _, _, rfl, rfl, .finished v u halike, hget, hown⟩
  | failed marks e s t hlater hscopes =>
    obtain ⟨hget, hown⟩ := hscopes.1.alike_outside hscopes.2 (mark_later hlater hmark)
    exact .inr ⟨_, _, _, _, rfl, rfl, .failed e, hget, hown⟩
  | exhausted => exact .inl ⟨rfl, rfl⟩

/-- A parameter that a `let` shadows and that a function inside returns. -/
theorem shadowed_parameter_renamed :
    let r : Renaming := ⟨"x", "z", fun site => site == ⟨0, [0, 0]⟩⟩
    let program (name : String) : Program :=
      [.bind "f" (.fn [name] [.bind name (.infixOp .plus (.ident name) (.int 1)),
        .expr (.fn [] [.expr (.ident name)])]),
        .expr (.call (.call (.ident "f") [.int 4]) [])]
    let session : Session := Session.empty.root.2
    session.scopes.Linked ∧ 0 < session.scopes.size ∧
    Stmt.AllNames (fun name => name ≠ r.new) (program "x") ∧
    (program "x").rename r session.programs = program "z" ∧
    ∃ later, session.evaluate 1 (program "z") 0 = some (.finished (some (.int 5)), later) := by
  intro r program session
  have hsize : 0 < session.scopes.size := by decide
  have hnames : Stmt.AllNames (fun name => name ≠ r.new) (program "x") := by
    simp [Stmt.AllNames, Stmt.Names, Expr.Names, Expr.AllNames, program, r]
  have hrenamed : (program "x").rename r session.programs = program "z" := by
    simp only [program, r, session]
    cbv
  refine ⟨Scopes.linked_root, hsize, hnames, hrenamed, ?_⟩
  have hvalue : (session.evaluate 1 (program "x") 0).map Prod.fst =
      some (.finished (some (.int 5))) := by
    simp only [program, session]
    cbv
  rcases parameter_renaming_unobserved r Scopes.linked_root hsize hnames 1 with
    ⟨hnone, _⟩ | ⟨reply, reply', later, later', hreply, hreply', halike, _⟩
  · rw [hnone] at hvalue
    cases hvalue
  · rw [hreply] at hvalue
    obtain rfl : reply = .finished (some (.int 5)) := Option.some.inj hvalue
    rw [hrenamed] at hreply'
    cases halike with
    | finished v u h =>
      obtain ⟨_, rfl, h⟩ := h.exists_some
      cases h
      exact ⟨later', hreply'⟩

end Monkey
