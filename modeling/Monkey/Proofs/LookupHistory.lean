import Mathlib.Data.List.Basic
import Monkey.Proofs.ScopeGraph

/-!
# What a look-up owes to the history

Scopes are created, and names are set in them, in any order. A look-up finds what
was set last in the nearest scope in which the name was ever set, on the way from
the scope outward; so what is set in an outer scope later on shows through. The
specification reads the history only, and no table.
-/

set_option autoImplicit false

namespace Monkey

namespace Operation

def Edits : Operation → Prop
  | evaluate _ _ _ => False
  | _ => True

def created? : Operation → Option (Option ScopeId)
  | root => some none
  | enclose outer => some (some outer)
  | _ => none

def sets? (i : ScopeId) (name : String) : Operation → Option Value
  | set j other v => if j = i ∧ other = name then some v else none
  | _ => none

def outers (history : List Operation) : List (Option ScopeId) := history.filterMap created?

/-- What the name was set to in the scope most recently. -/
def lastSet? (history : List Operation) (i : ScopeId) (name : String) : Option Value :=
  history.reverse.findSome? (sets? i name)

end Operation

/-- The scopes from one scope outward, the scope itself first. -/
inductive OuterChain (outers : List (Option ScopeId)) : ScopeId → List ScopeId → Prop where
  | root (i : ScopeId) (h : outers[i]? = some none) : OuterChain outers i [i]
  | enclosed (i outer : ScopeId) (chain : List ScopeId) (h : outers[i]? = some (some outer))
      (hchain : OuterChain outers outer chain) : OuterChain outers i (i :: chain)

theorem OuterChain.unique {outers : List (Option ScopeId)} {e : ScopeId}
    {chain other : List ScopeId} (h : OuterChain outers e chain)
    (hother : OuterChain outers e other) : other = chain := by
  induction h generalizing other with
  | root i hi =>
    cases hother with
    | root => rfl
    | enclosed _ outer _ hi' =>
      rw [hi] at hi'
      cases hi'
  | enclosed i outer chain hi _ ih =>
    cases hother with
    | root _ hi' =>
      rw [hi] at hi'
      cases hi'
    | enclosed _ outer' chain' hi' hchain' =>
      rw [hi] at hi'
      cases hi'
      rw [ih hchain']

namespace Operation

theorem outers_append (history : List Operation) (o : Operation) :
    outers (history ++ [o]) = outers history ++ o.created?.toList := by
  rw [outers, List.filterMap_append]
  cases h : o.created? with
  | none => simp [outers, h]
  | some outer => simp [outers, h]

theorem lastSet?_append (history : List Operation) (o : Operation) (i : ScopeId)
    (name : String) :
    lastSet? (history ++ [o]) i name = (o.sets? i name).or (lastSet? history i name) := by
  rw [lastSet?, List.reverse_append, List.findSome?_append, List.reverse_singleton,
    List.findSome?_singleton]
  rfl

theorem lastSet?_eq_none_iff {history : List Operation} {i : ScopeId} {name : String} :
    lastSet? history i name = none ↔ ∀ v, set i name v ∉ history := by
  simp only [lastSet?, List.findSome?_eq_none_iff, List.mem_reverse]
  constructor
  · intro h v hv
    have hnone := h _ hv
    simp [sets?] at hnone
  · intro h o ho
    cases o with
    | set j other v =>
      refine if_neg ?_
      rintro ⟨rfl, rfl⟩
      exact h v ho
    | _ => rfl

theorem findSome?_unset {history : List Operation} {o : Operation} {chain : List ScopeId}
    {name : String} (h : ∀ i ∈ chain, o.sets? i name = none) :
    (chain.findSome? fun i => (o.sets? i name).or (lastSet? history i name)) =
      chain.findSome? fun i => lastSet? history i name := by
  rw [← List.head?_filterMap, ← List.head?_filterMap]
  refine congrArg List.head? (List.filterMap_congr fun i hi => ?_)
  rw [h i hi, Option.none_or]

end Operation

/-! ### What a table holds of its history -/

namespace Scopes

variable {s : Scopes}

def own? (s : Scopes) (i : ScopeId) (name : String) : Option Value :=
  s[i]?.bind fun scope => scope.get name

theorem own?_create (s : Scopes) (outer : Option ScopeId) (i : ScopeId) (name : String) :
    (s.create outer).own? i name = s.own? i name := by
  unfold own?
  by_cases hi : i < s.size
  · rw [create_other s outer hi]
  · have hnone : s[i]? = none := Array.getElem?_eq_none (Nat.le_of_not_lt hi)
    rw [hnone]
    cases ha : (s.create outer)[i]? with
    | none => rfl
    | some a =>
      rcases create_cases ha with hold | ⟨_, rfl⟩
      · rw [hnone] at hold
        cases hold
      · rfl

theorem own?_set {j : ScopeId} (hj : j < s.size) (other : String) (v : Value) (i : ScopeId)
    (name : String) :
    (s.set j other v).own? i name = if j = i ∧ other = name then some v else s.own? i name := by
  unfold own?
  by_cases hi : i = j
  · subst hi
    have hscope := Array.getElem?_eq_getElem hj
    rw [set_self other v hscope, hscope]
    by_cases hname : name = other
    · subst hname
      rw [if_pos ⟨rfl, rfl⟩]
      exact Scope.get_set_self _ _ _
    · rw [if_neg fun h => hname h.2.symm]
      exact Scope.get_set_of_ne _ _ _ _ hname
  · rw [set_other s other v hi, if_neg fun h => hi h.1.symm]

theorem outers_set (s : Scopes) (j : ScopeId) (name : String) (v : Value) :
    (s.set j name v).toList.map Scope.outer = s.toList.map Scope.outer := by
  apply List.ext_getElem?
  intro i
  rw [List.getElem?_map, List.getElem?_map, Array.getElem?_toList, Array.getElem?_toList]
  by_cases hi : i < s.size
  · exact (Extends.set s j name v).outer_eq hi
  · have hsize := Nat.le_of_not_lt hi
    rw [Array.getElem?_eq_none hsize, Array.getElem?_eq_none ((size_set s j name v).symm ▸ hsize)]

end Scopes

/-- The table and the history have the same scopes, and these bind what was set last. -/
structure Session.Records (session : Session) (history : List Operation) : Prop where
  linked : session.scopes.Linked
  scopes : Operation.outers history = session.scopes.toList.map Scope.outer
  bound : ∀ i name, session.scopes.own? i name = Operation.lastSet? history i name

theorem Session.records_empty : Session.empty.Records [] :=
  ⟨Scopes.linked_empty, rfl, fun _ _ => rfl⟩

namespace Session.Records

open Operation

variable {session later : Session} {history : List Operation}

theorem create (h : session.Records history) {o : Operation} {outer : Option ScopeId}
    (ho : o.created? = some outer) (hsets : ∀ i name, o.sets? i name = none)
    (hscopes : later.scopes = session.scopes.create outer) (hlinked : later.scopes.Linked) :
    later.Records (history ++ [o]) := by
  refine ⟨hlinked, ?_, fun i name => ?_⟩
  · rw [outers_append, ho, h.scopes, hscopes, Scopes.create, Array.toList_push, List.map_append]
    rfl
  · rw [lastSet?_append, hsets, Option.none_or, hscopes, Scopes.own?_create, h.bound]

theorem step (h : session.Records history) {o : Operation} (ho : o.Edits) {r : Option Value}
    (hr : session.perform? o = some (r, later)) : later.Records (history ++ [o]) := by
  have hlinked := (Session.perform_linked h.linked hr).1
  cases o with
  | root =>
    cases hr
    exact h.create rfl (fun _ _ => rfl) rfl hlinked
  | enclose outer =>
    simp only [perform?, Option.ite_none_right_eq_some] at hr
    obtain ⟨_, hr⟩ := hr
    cases hr
    exact h.create rfl (fun _ _ => rfl) rfl hlinked
  | set j other v =>
    simp only [perform?, Option.ite_none_right_eq_some] at hr
    obtain ⟨⟨hj, _⟩, hr⟩ := hr
    cases hr
    refine ⟨hlinked, ?_, fun i name => ?_⟩
    · rw [outers_append, h.scopes]
      exact (List.append_nil _).trans (Scopes.outers_set _ j other v).symm
    · rw [lastSet?_append, ← h.bound]
      change (session.scopes.set j other v).own? i name = _
      rw [Scopes.own?_set hj, sets?]
      split <;> rfl
  | evaluate limit p scope => exact ho.elim

theorem run (h : session.Records history) {operations : List Operation}
    (hedits : ∀ o ∈ operations, o.Edits)
    (hlater : session.performAll? operations = some later) :
    later.Records (history ++ operations) := by
  induction operations generalizing session history with
  | nil =>
    cases hlater
    rwa [List.append_nil]
  | cons o rest ih =>
    obtain ⟨ho, hrest⟩ := List.forall_mem_cons.1 hedits
    obtain ⟨⟨r, next⟩, hnext, hlater⟩ := Option.bind_eq_some_iff.1 hlater
    rw [List.append_cons]
    exact ih (h.step ho hnext) hrest hlater

/-! ### Looking names up along a chain -/

theorem scope_of (h : session.Records history) {i : ScopeId} {outer : Option ScopeId}
    (houter : (outers history)[i]? = some outer) :
    ∃ scope, session.scopes[i]? = some scope ∧ scope.outer = outer := by
  rwa [h.scopes, List.getElem?_map, Array.getElem?_toList, Option.map_eq_some_iff] at houter

theorem older (h : session.Records history) {i outer : ScopeId}
    (houter : (outers history)[i]? = some (some outer)) : outer < i := by
  obtain ⟨scope, hscope, hout⟩ := h.scope_of houter
  exact h.linked.older i scope outer hscope hout

theorem get_scope (h : session.Records history) {i : ScopeId} {scope : Scope}
    (hscope : session.scopes[i]? = some scope) (name : String) :
    scope.get name = lastSet? history i name := by
  rw [← h.bound, Scopes.own?, hscope, Option.bind_some]

theorem exists_chain (h : session.Records history) {e : ScopeId}
    (he : e < session.scopes.size) : ∃ chain, OuterChain (outers history) e chain := by
  induction e using Nat.strongRecOn with
  | ind e ih =>
    have houter : (outers history)[e]? = some session.scopes[e].outer := by
      rw [h.scopes, List.getElem?_map, Array.getElem?_toList, Array.getElem?_eq_getElem he]
      rfl
    cases hout : session.scopes[e].outer with
    | none =>
      rw [hout] at houter
      exact ⟨[e], .root e houter⟩
    | some outer =>
      rw [hout] at houter
      have holder := h.older houter
      obtain ⟨chain, hchain⟩ := ih outer holder (Nat.lt_trans holder he)
      exact ⟨e :: chain, .enclosed e outer chain houter hchain⟩

theorem chain_sorted (h : session.Records history) {e : ScopeId} {chain : List ScopeId}
    (hchain : OuterChain (outers history) e chain) :
    (∀ i ∈ chain, i ≤ e) ∧ chain.Pairwise (fun i j => j < i) := by
  induction hchain with
  | root i _ =>
    exact ⟨fun j hj => Nat.le_of_eq (List.mem_singleton.1 hj), List.pairwise_singleton _ _⟩
  | enclosed i outer chain houter _ ih =>
    have hlt : ∀ j ∈ chain, j < i := fun j hj => Nat.lt_of_le_of_lt (ih.1 j hj) (h.older houter)
    exact ⟨List.forall_mem_cons.2 ⟨Nat.le_refl i, fun j hj => Nat.le_of_lt (hlt j hj)⟩,
      List.pairwise_cons.2 ⟨hlt, ih.2⟩⟩

theorem get_eq (h : session.Records history) {e : ScopeId} {chain : List ScopeId}
    (hchain : OuterChain (outers history) e chain) (name : String) :
    session.get e name = chain.findSome? fun i => lastSet? history i name := by
  induction hchain with
  | root i houter =>
    obtain ⟨scope, hscope, hout⟩ := h.scope_of houter
    rw [List.findSome?_singleton, ← h.get_scope hscope]
    cases hv : scope.get name with
    | some v => exact Scopes.get_bound hscope hv
    | none => exact Scopes.get_free hscope hv hout
  | enclosed i outer chain houter _ ih =>
    obtain ⟨scope, hscope, hout⟩ := h.scope_of houter
    rw [List.findSome?_cons, ← h.get_scope hscope, ← ih]
    cases hv : scope.get name with
    | some v => exact Scopes.get_bound hscope hv
    | none => exact Scopes.get_outward hscope hv hout (h.older houter)

section

variable {e i : ScopeId} {chain : List ScopeId} {name other : String} {v : Value}
  {r : Option Value}

theorem get_after_set (h : session.Records history) (hchain : OuterChain (outers history) e chain)
    (hr : session.perform? (.set i name v) = some (r, later)) (other : String) :
    later.get e other = chain.findSome? fun j =>
      (sets? j other (.set i name v)).or (lastSet? history j other) := by
  have hedits : (Operation.set i name v).Edits := trivial
  have hsame : outers (history ++ [.set i name v]) = outers history := by
    rw [outers_append]
    exact List.append_nil _
  rw [(h.step hedits hr).get_eq (hsame.symm ▸ hchain)]
  simp only [lastSet?_append]

theorem set_unseen (h : session.Records history) (hchain : OuterChain (outers history) e chain)
    (hr : session.perform? (.set i name v) = some (r, later))
    (hunseen : ∀ j ∈ chain, sets? j other (.set i name v) = none) :
    later.get e other = session.get e other := by
  rw [h.get_after_set hchain hr, findSome?_unset hunseen, h.get_eq hchain]

theorem set_shadowed {nearer farther : List ScopeId} {j : ScopeId} {w : Value}
    (h : session.Records history)
    (hchain : OuterChain (outers history) e (nearer ++ i :: farther))
    (hr : session.perform? (.set i name v) = some (r, later)) (hj : j ∈ nearer)
    (hw : .set j name w ∈ history) : later.get e name = session.get e name := by
  -- No scope occurs twice on a chain.
  have hapart := (List.pairwise_append.1 (h.chain_sorted hchain).2).2.2
  have hunseen : ∀ k ∈ nearer, sets? k name (.set i name v) = none := by
    intro k hk
    have hlt := hapart k hk i List.mem_cons_self
    exact if_neg fun hboth => Nat.ne_of_lt hlt hboth.1
  have hfound : (nearer.findSome? fun k => lastSet? history k name).isSome := by
    refine List.findSome?_isSome_iff.2 ⟨j, hj, ?_⟩
    rw [← Option.ne_none_iff_isSome]
    exact fun hnone => lastSet?_eq_none_iff.1 hnone w hw
  rw [h.get_after_set hchain hr, h.get_eq hchain, List.findSome?_append, List.findSome?_append,
    findSome?_unset hunseen, Option.or_of_isSome hfound, Option.or_of_isSome hfound]

end

end Session.Records

/-- In every session that creating scopes and setting names leads to, each scope has one chain
of scopes outward. Looking a name up finds what was set most recently in the nearest scope of
the chain in which the name was ever set, and nothing if there is none. Setting a name changes
no look-up from a scope whose chain does not contain the scope in question, no look-up of
another name, and none where the name was set in a nearer scope of the chain. -/
theorem lookup_matches_history {history : List Operation} {session : Session}
    (hedits : ∀ o ∈ history, o.Edits)
    (hsession : Session.empty.performAll? history = some session) {e : ScopeId}
    (he : e < session.scopes.size) :
    ∃ chain, OuterChain (Operation.outers history) e chain ∧
      (∀ other, OuterChain (Operation.outers history) e other → other = chain) ∧
      (∀ name, session.get e name =
        chain.findSome? fun i => Operation.lastSet? history i name) ∧
      ∀ i name v r later, session.perform? (.set i name v) = some (r, later) →
        (i ∉ chain → ∀ other, later.get e other = session.get e other) ∧
        (∀ other, other ≠ name → later.get e other = session.get e other) ∧
        ∀ nearer farther j w, chain = nearer ++ i :: farther → j ∈ nearer →
          .set j name w ∈ history → later.get e name = session.get e name := by
  have hrecords : session.Records history := Session.records_empty.run hedits hsession
  obtain ⟨chain, hchain⟩ := hrecords.exists_chain he
  refine ⟨chain, hchain, fun other hother => hchain.unique hother,
    fun name => hrecords.get_eq hchain name, fun i name v r later hr => ⟨?_, ?_, ?_⟩⟩
  · intro hi other
    refine hrecords.set_unseen hchain hr fun j hj => if_neg ?_
    rintro ⟨rfl, _⟩
    exact hi hj
  · intro other hother
    exact hrecords.set_unseen hchain hr fun j _ => if_neg fun hboth => hother hboth.2.symm
  · rintro nearer farther j w rfl hj hw
    exact hrecords.set_shadowed hchain hr hj hw

/-- A name that is set outside after the inner scope was created shows through, and one that the
inner scope has is hidden outside, whatever it is set to there. -/
theorem late_set_shows_through :
    let history : List Operation := [.root, .enclose 0, .set 1 "x" (.int 2),
      .set 0 "late" (.int 8), .set 0 "x" (.int 1), .set 0 "late" (.int 9)]
    let outer : Scope := ⟨none, [("late", .int 9), ("x", .int 1)]⟩
    let inner : Scope := ⟨some 0, [("x", .int 2)]⟩
    (∀ o ∈ history, o.Edits) ∧
      Session.empty.performAll? history = some ⟨#[outer, inner], 0⟩ ∧
      Session.get ⟨#[outer, inner], 0⟩ 1 "late" = some (.int 9) ∧
      ∃ later r, Session.perform? ⟨#[outer, inner], 0⟩ (.set 0 "x" (.int 3)) = some (r, later) ∧
        later.get 1 "x" = some (.int 2) := by
  intro history outer inner
  have hedits : ∀ o ∈ history, o.Edits := by simp [history, Operation.Edits]
  have hsession : Session.empty.performAll? history = some ⟨#[outer, inner], 0⟩ := rfl
  obtain ⟨chain, _, hunique, hget, hset⟩ := lookup_matches_history hedits hsession Nat.one_lt_two
  obtain rfl : [1, 0] = chain := hunique _ (.enclosed 1 0 [0] rfl (.root 0 rfl))
  obtain ⟨_, _, hshadowed⟩ := hset 0 "x" (.int 3) _ _ rfl
  have hx := hshadowed [1] [] 1 (.int 2) rfl (by simp) (by simp [history])
  exact ⟨hedits, hsession, hget "late", _, _, rfl, hx.trans (hget "x")⟩

end Monkey
