import Mathlib
import Monkey.Proofs.AlignedScopes
import Monkey.Proofs.Frame
import Monkey.Proofs.Regions

/-!
# Bindings of names that do not occur

A binding makes no difference to a program if its name occurs neither in the
program nor in any function that the program can come to. All that the program
looks up are other names, from scopes that lead to no other functions than such,
and its own functions do not mention the name either. So the two evaluations stay
aligned on the other names, and all else stays as it is.
-/

set_option autoImplicit false

namespace Monkey

/-- All names in functions that a scope leads to, in their parameters and their bodies, are of
this kind. -/
def Scopes.FunctionNames (s : Scopes) (start : ScopeId) (kind : String → Prop) : Prop :=
  ∀ (i : ScopeId) (a : Scope) (name : String) (v : Value) (f : Closure), s.LeadsTo start i →
    s[i]? = some a → a.get name = some v → v.closure? = some f →
    (Expr.fn f.params f.body).Names kind

structure Scopes.SameBut (x : String) (s t : Scopes) : Prop where
  size : t.size = s.size
  counterpart : ∀ (i : ScopeId) (a : Scope), s[i]? = some a →
    ∃ b, t[i]? = some b ∧ b.outer = a.outer ∧ ∀ name, name ≠ x → b.get name = a.get name

/-- Within a region, names other than `x` are bound to the same values, and no function that
they are bound to mentions `x`. -/
def Alignment.without (region : ScopeId → Prop) (x : String) : Alignment where
  region := region
  kind := fun name => name ≠ x
  closure := fun f g =>
    f = g ∧ (Expr.fn f.params f.body).Names (fun name => name ≠ x) ∧ region f.scope

section

variable {region : ScopeId → Prop} {x : String}

def Positions.without (region : ScopeId → Prop) (x : String) :
    Positions (Alignment.without region x).correspondence where
  here := fun _ i a j b => region i ∧ i = j ∧ a = b
  kind := fun name => name ≠ x
  mono := fun _ h => h
  child := by
    rintro _ i a _ _ turn ⟨hi, rfl, rfl⟩
    exact ⟨hi, rfl, rfl⟩
  lookup := by
    rintro _ i a _ _ name ⟨hi, rfl, rfl⟩ hname
    exact Alignment.lookup hi hname
  assign := by
    rintro _ i a _ _ name v u ⟨_, rfl, rfl⟩ _ hv
    exact Alignment.assign i name hv
  literal := by
    rintro _ i a _ _ params body ⟨hi, rfl, rfl⟩ hnames
    exact ⟨rfl, hnames, hi⟩

theorem Alignment.calls_without (region : ScopeId → Prop) (x : String) (limit : Nat) :
    (Alignment.without region x).correspondence.Calls (Closure.apply limit)
      (Closure.apply limit) := by
  apply Correspondence.calls_apply
  rintro call call' hcall _ f _ vs us ⟨rfl, hnames, hscope⟩ hvs
  apply Correspondence.enter rfl hvs fun _ => Alignment.opened hscope hvs f.params
  rintro _ _ i _ ⟨rfl, hi⟩
  exact (Positions.without region x).evalAll hcall f.body () _ _ i i none none ⟨hi, rfl, rfl⟩
    hnames.2 trivial

theorem Program.eval_without (region : ScopeId → Prop) {p : Program}
    (hp : Stmt.AllNames (fun name => name ≠ x) p) {scope : ScopeId} (hscope : region scope)
    (limit number : Nat) :
    (p.eval limit number scope).Corresponds (Alignment.without region x).correspondence ()
      (Alignment.without region x).correspondence.Results (p.eval limit number scope) := by
  apply Program.corresponds
  exact (Positions.without region x).evalAll (Alignment.calls_without region x limit) p () _ _
    scope scope none none ⟨hscope, rfl, rfl⟩ hp trivial

end

namespace Scopes

variable {s t : Scopes} {start : ScopeId} {x : String}

theorem FunctionNames.aligned (h : s.FunctionNames start fun name => name ≠ x) :
    s.Aligned (Alignment.without (s.From start) x) s := by
  refine ⟨rfl, fun i hi => .inr hi, fun i a hi ha =>
    ⟨a, ha, rfl, fun outer houter => hi.outward ha houter, fun name _ => ?_⟩⟩
  apply CorrespondingOptions.self
  exact fun v f hv hf => ⟨rfl, h i a name v f (hi.leadsTo ha) ha hv hf, hi.captured ha hv hf⟩

theorem sameBut_set (s : Scopes) (i : ScopeId) (x : String) (v : Value) :
    s.SameBut x (s.set i x v) := by
  refine ⟨size_set s i x v, fun j a ha => ?_⟩
  by_cases hji : j = i
  · subst hji
    exact ⟨a.set x v, set_self x v ha, rfl, fun name hname => Scope.get_set_of_ne _ _ _ _ hname⟩
  · exact ⟨a, by rw [set_other s x v hji, ha], rfl, fun _ _ => rfl⟩

theorem SameBut.get (h : s.SameBut x t) (i : ScopeId) {name : String} (hname : name ≠ x) :
    t.get i name = s.get i name := by
  have haligned : s.Aligned ⟨fun _ => True, fun name => name ≠ x, Eq⟩ t := by
    refine ⟨h.size, fun _ _ => trivial, fun i a _ ha => ?_⟩
    obtain ⟨b, hb, houter, hbound⟩ := h.counterpart i a ha
    refine ⟨b, hb, houter, fun _ _ => trivial, fun other hother => ?_⟩
    rw [hbound other hother]
    exact CorrespondingOptions.self fun _ _ _ _ => rfl
  exact ((haligned.get trivial hname).eq fun _ _ h => h).symm

/-- Tables are the same but for a name if they are aligned in the region, and outside of it
have come from tables that were the same and stayed as they were. -/
theorem Aligned.sameBut {region : ScopeId → Prop} {s t later later' : Scopes}
    (h : later.Aligned (Alignment.without region x) later') (hbefore : s.SameBut x t)
    (hout : ∀ i, ¬ region i → later[i]? = s[i]? ∧ later'[i]? = t[i]?) :
    later.SameBut x later' := by
  refine ⟨h.same_size, fun i a ha => ?_⟩
  by_cases hi : region i
  · obtain ⟨b, hb, halike⟩ := h.counterpart i a hi ha
    refine ⟨b, hb, halike.outer, fun name hname => ?_⟩
    exact ((halike.bound name hname).eq fun _ _ h => h.1).symm
  · obtain ⟨hlater, hlater'⟩ := hout i hi
    rw [hlater] at ha
    rw [hlater']
    exact hbefore.counterpart i a ha

end Scopes

theorem Reply.Corresponds.eq {closure : Closure → Closure → Prop} {r q : Reply}
    (h : r.Corresponds closure q) (heq : ∀ f g, closure f g → f = g) : r = q := by
  cases h with
  | failed e => rfl
  | finished v u h => rw [h.eq heq]

/-- If a name occurs neither in a program nor in any function that the scope of the program
leads to, then binding it to any value, in that scope, in one around it or anywhere, does not
change what the program comes to: the same value, no value, the same error, or no end. Nor
does it change what any scope binds another name to in the end, or what is found for it. -/
theorem unused_binding_unobserved {session : Session} {scope : ScopeId} {x : String} {p : Program}
    (hp : Stmt.AllNames (fun name => name ≠ x) p)
    (hfunctions : session.scopes.FunctionNames scope fun name => name ≠ x)
    (i : ScopeId) (v : Value) (limit : Nat) :
    (session.evaluate limit p scope = none ∧ (session.set i x v).evaluate limit p scope = none) ∨
    ∃ reply later later', session.evaluate limit p scope = some (reply, later) ∧
      (session.set i x v).evaluate limit p scope = some (reply, later') ∧
      later.scopes.SameBut x later'.scopes ∧
      ∀ j name, name ≠ x → later'.get j name = later.get j name := by
  have hscopes := hfunctions.aligned.set_right (not_not_intro rfl) i v
  have hstart : session.scopes.From scope scope := .inl .start
  have hprogram := Program.eval_without _ hp hstart limit session.programs
  rcases Session.evaluate_corresponds session (session.set i x v) hscopes hprogram with
    hnone | ⟨_, reply, reply', later, later', hreply, hreply', _, haligned, halike⟩
  · exact .inl hnone
  · obtain rfl : reply = reply' := halike.eq fun _ _ h => h.1
    have hsame : later.scopes.SameBut x later'.scopes := by
      apply haligned.sameBut (Scopes.sameBut_set session.scopes i x v)
      intro j hj
      obtain ⟨hout, hnew⟩ := not_or.1 hj
      have hne : j ≠ scope := fun heq => hout (heq ▸ .start)
      have hlt : j < session.scopes.size := Nat.lt_of_not_le hnew
      have hlt' : j < (session.set i x v).scopes.size := (size_set session.scopes i x v).symm ▸ hlt
      exact ⟨(program_framed (Session.evaluate_scopes hreply)).store j hlt hne,
        (program_framed (Session.evaluate_scopes hreply')).store j hlt' hne⟩
    exact .inr ⟨reply, later, later', hreply, hreply', hsame, fun j name hname =>
      hsame.get j hname⟩

/-- In a scope around the program, the name is bound to a function that mentions it. The program
calls a function of the scope around it, binds what that yields, and makes a function. -/
theorem mentioned_name_unused :
    let sum : Block := [.ret (some (.infixOp .plus (.ident "y") (.ident "n")))]
    let f : Closure := ⟨["y"], sum, 0, ⟨0, [0]⟩⟩
    let unused : Closure := ⟨[], [.expr (.call (.ident "x") [])], 1, ⟨1, [0]⟩⟩
    let made : Closure := ⟨[], [.expr (.ident "r")], 1, ⟨2, [0, 0, 1]⟩⟩
    let session : Session := ⟨#[⟨none, [("f", .function f), ("n", .int 3)]⟩, ⟨some 0, []⟩], 2⟩
    let p : Program :=
      [.bind "r" (.call (.ident "f") [.int 4]), .expr (.fn [] [.expr (.ident "r")])]
    Stmt.AllNames (fun name => name ≠ "x") p ∧
      session.scopes.FunctionNames 1 (fun name => name ≠ "x") ∧
      ∃ later', (session.set 0 "x" (.function unused)).evaluate 1 p 1 =
        some (.finished (some (.function made)), later') ∧ later'.get 1 "r" = some (.int 7) := by
  intro sum f unused made session p
  have hp : Stmt.AllNames (fun name => name ≠ "x") p := by
    simp [Stmt.AllNames, Stmt.Names, Expr.Names, Expr.AllNames, p]
  have hfunctions : session.scopes.FunctionNames 1 fun name => name ≠ "x" := by
    intro i a name v g _ ha hv hg
    match i with
    | 0 =>
      cases ha
      change List.lookup name [("f", .function f), ("n", .int 3)] = some v at hv
      simp only [List.lookup_cons, List.lookup_nil] at hv
      split at hv
      · cases hv
        cases hg
        simp [Expr.Names, Stmt.AllNames, Stmt.Names, f, sum]
      · split at hv
        · cases hv
          cases hg
        · cases hv
    | 1 =>
      cases ha
      cases hv
    | i + 2 => cases ha
  have hvalue : (session.evaluate 1 p 1).map (fun answer => (answer.1, answer.2.get 1 "r")) =
      some (.finished (some (.function made)), some (.int 7)) := by
    simp only [session, p, made]
    cbv
  refine ⟨hp, hfunctions, ?_⟩
  rcases unused_binding_unobserved hp hfunctions 0 (.function unused) 1 with
    ⟨hnone, _⟩ | ⟨reply, later, later', hreply, hreply', _, hget⟩
  · rw [hnone] at hvalue
    cases hvalue
  · rw [hreply] at hvalue
    obtain ⟨rfl, hr⟩ := Prod.mk.inj (Option.some.inj hvalue)
    exact ⟨later', hreply', (hget 1 "r" (by decide)).trans hr⟩

end Monkey
