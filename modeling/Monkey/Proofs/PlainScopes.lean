import Monkey.Proofs.History

/-!
# Scopes bind plain values

A name is never bound to a wrapped value: every binding takes its value from an
operand, and an operand that is on its way out is handed up before. The function
values in the scopes all come from literals, and each was created in a scope that
is there. What the literals of the programs satisfy, the function values satisfy
as well; the rule is a parameter.
-/

set_option autoImplicit false

namespace Monkey

/-- What is required of function literals: of the place, the parameters and the body. -/
abbrev LiteralRule := Site → List String → Block → Prop

mutual

/-- All function literals in the expression at `site` obey the rule. -/
def Expr.Literals (rule : LiteralRule) (site : Site) : Expr → Prop
  | .ident _ => True
  | .int _ => True
  | .bool _ => True
  | .prefixOp _ e => e.Literals rule (site.child 0)
  | .infixOp _ e f => e.Literals rule (site.child 0) ∧ f.Literals rule (site.child 1)
  | .cond c a none => c.Literals rule (site.child 0) ∧ Stmt.AllLiterals rule (site.child 1) a
  | .cond c a (some b) =>
    c.Literals rule (site.child 0) ∧ Stmt.AllLiterals rule (site.child 1) a ∧
      Stmt.AllLiterals rule (site.child 2) b
  | .fn ps body => rule site ps body ∧ Stmt.AllLiterals rule (site.child 0) body
  | .call f es => f.Literals rule (site.child 0) ∧ Expr.AllLiterals rule (site.child 1) es

def Expr.AllLiterals (rule : LiteralRule) (site : Site) : List Expr → Prop
  | [] => True
  | e :: es => e.Literals rule (site.child 0) ∧ Expr.AllLiterals rule (site.child 1) es

def Stmt.Literals (rule : LiteralRule) (site : Site) : Stmt → Prop
  | .bind _ e => e.Literals rule (site.child 0)
  | .ret none => True
  | .ret (some e) => e.Literals rule (site.child 0)
  | .expr e => e.Literals rule (site.child 0)
  | .block body => Stmt.AllLiterals rule (site.child 0) body

def Stmt.AllLiterals (rule : LiteralRule) (site : Site) : List Stmt → Prop
  | [] => True
  | s :: ss => s.Literals rule (site.child 0) ∧ Stmt.AllLiterals rule (site.child 1) ss

end

def anyLiteral : LiteralRule := fun _ _ _ => True

mutual

theorem Expr.literals_any : (e : Expr) → (site : Site) → e.Literals anyLiteral site
  | .ident _, _ => trivial
  | .int _, _ => trivial
  | .bool _, _ => trivial
  | .prefixOp _ e, _ => Expr.literals_any e _
  | .infixOp _ e f, _ => ⟨Expr.literals_any e _, Expr.literals_any f _⟩
  | .cond c a none, _ => ⟨Expr.literals_any c _, Stmt.allLiterals_any a _⟩
  | .cond c a (some b), _ =>
    ⟨Expr.literals_any c _, Stmt.allLiterals_any a _, Stmt.allLiterals_any b _⟩
  | .fn _ body, _ => ⟨trivial, Stmt.allLiterals_any body _⟩
  | .call f es, _ => ⟨Expr.literals_any f _, Expr.allLiterals_any es _⟩

theorem Expr.allLiterals_any : (es : List Expr) → (site : Site) →
    Expr.AllLiterals anyLiteral site es
  | [], _ => trivial
  | e :: es, _ => ⟨Expr.literals_any e _, Expr.allLiterals_any es _⟩

theorem Stmt.literals_any : (s : Stmt) → (site : Site) → s.Literals anyLiteral site
  | .bind _ e, _ => Expr.literals_any e _
  | .ret none, _ => trivial
  | .ret (some e), _ => Expr.literals_any e _
  | .expr e, _ => Expr.literals_any e _
  | .block body, _ => Stmt.allLiterals_any body _

theorem Stmt.allLiterals_any : (ss : List Stmt) → (site : Site) →
    Stmt.AllLiterals anyLiteral site ss
  | [], _ => trivial
  | s :: ss, _ => ⟨Stmt.literals_any s _, Stmt.allLiterals_any ss _⟩

end

/-- A value that a name may be bound to, where there are `count` scopes. -/
def Value.Plain (rule : LiteralRule) (count : Nat) : Value → Prop
  | .function f => f.scope < count ∧ (Expr.fn f.params f.body).Literals rule f.origin
  | .returned _ => False
  | .error _ => False
  | .int _ => True
  | .bool _ => True
  | .null => True

def Value.Sound (rule : LiteralRule) (count : Nat) : Value → Prop
  | .returned v => v.Sound rule count
  | v => v.Plain rule count

structure Scopes.Sound (rule : LiteralRule) (s : Scopes) : Prop where
  older : ∀ (i : ScopeId) (scope : Scope) (outer : ScopeId), s[i]? = some scope →
    scope.outer = some outer → outer < i
  plain : ∀ (i : ScopeId) (scope : Scope) (name : String) (v : Value), s[i]? = some scope →
    (name, v) ∈ scope.bindings → v.Plain rule s.size

section

variable {rule : LiteralRule} {count n : Nat}

theorem Value.Plain.sound {v : Value} (h : v.Plain rule count) : v.Sound rule count := by
  cases v with
  | returned w => exact h.elim
  | _ => exact h

theorem Value.Atom.plain {v : Value} (h : v.Atom) : v.Plain rule count := by
  cases v with
  | int n => exact trivial
  | bool b => exact trivial
  | null => exact trivial
  | _ => exact h.elim

theorem Value.Plain.mono {v : Value} (h : v.Plain rule count) (hn : count ≤ n) :
    v.Plain rule n := by
  cases v with
  | function f => exact ⟨Nat.lt_of_lt_of_le h.1 hn, h.2⟩
  | _ => exact h

namespace Scopes.Sound

variable {s : Scopes}

theorem get {i : ScopeId} {name : String} {v : Value} (h : s.Sound rule)
    (hv : s.get i name = some v) : v.Plain rule s.size := by
  obtain ⟨j, scope, hscope, hbound⟩ := Scopes.bound_of_get hv
  exact h.plain j scope name v hscope (Scope.mem_of_get hbound)

theorem set {i : ScopeId} {name : String} {v : Value} (h : s.Sound rule)
    (hv : v.Plain rule s.size) : (s.set i name v).Sound rule := by
  constructor
  · intro j scope outer hj houter
    obtain ⟨old, hold, rfl | rfl⟩ := set_cases hj
    · exact h.older j scope outer hold houter
    · exact h.older j old outer hold houter
  · intro j scope key w hj hw
    rw [size_set]
    obtain ⟨old, hold, rfl | rfl⟩ := set_cases hj
    · exact h.plain j scope key w hold hw
    · rcases List.mem_cons.1 hw with heq | hmem
      · cases heq
        exact hv
      · exact h.plain j old key w hold (List.mem_filter.1 hmem).1

theorem create {outer : Option ScopeId} (h : s.Sound rule)
    (houter : ∀ i, outer = some i → i < s.size) : (s.create outer).Sound rule := by
  constructor
  · intro j scope o hj ho
    rcases create_cases hj with hold | ⟨rfl, rfl⟩
    · exact h.older j scope o hold ho
    · exact houter o ho
  · intro j scope key w hj hw
    rw [size_create]
    rcases create_cases hj with hold | ⟨rfl, rfl⟩
    · exact (h.plain j scope key w hold hw).mono (Nat.le_succ _)
    · cases hw

end Scopes.Sound

def literalCode (rule : LiteralRule) : Code where
  expr := fun site e => e.Literals rule site
  exprs := fun site es => Expr.AllLiterals rule site es
  stmt := fun site s => s.Literals rule site
  stmts := fun site ss => Stmt.AllLiterals rule site ss
  prefixOp := id
  infixOp := id
  cond := id
  condElse := id
  call := id
  cons := id
  bind := id
  only := id
  block := id
  seq := id

namespace Invariant

/-- Scopes are sound, and there are as many of them as the world says. -/
def sound (rule : LiteralRule) : Invariant Nat where
  kept := fun n _ m => n ≤ m
  cut := fun _ _ _ => True
  fits := fun n s => s.size = n ∧ s.Sound rule
  ready := fun _ => True
  plain := fun n v => v.Plain rule n
  out := fun _ n v => v.Sound rule n
  bad := fun _ => True
  kept_nil := Nat.le_refl
  kept_append := Nat.le_trans
  cut_nil := fun _ => trivial
  cut_append := fun _ _ => trivial
  plain_kept := fun hle h => h.mono hle
  atom := Value.Atom.plain
  out_of_plain := fun _ h => h.elim
  typed := fun _ => trivial

theorem sound_value {inside : Bool} {n : Nat} {v : Value} :
    (sound rule).value inside n v ↔ v.Sound rule n := by
  cases v with
  | returned v => exact Iff.rfl
  | _ => exact ⟨And.right, And.intro trivial⟩

theorem sound_unwrapped {n : Nat} {v : Value} (h : (sound rule).unwrapped n v) :
    v.Sound rule n :=
  h.elim id fun h => h.2.sound

theorem sound_binds (n : Nat) (scope : ScopeId) : (sound rule).Binds n scope := by
  rintro name v s hv ⟨rfl, hs⟩
  exact ⟨s.size, Nat.le_refl _, ⟨size_set s scope name v, hs.set hv⟩, trivial⟩

theorem sound_places (rule : LiteralRule) :
    (sound rule).Places (fun n scope => scope < n) fun _ => literalCode rule where
  ready := fun _ => trivial
  later := fun h hle _ => Nat.lt_of_lt_of_le h hle
  operand := id
  lookup := fun _ _ hs => ⟨fun _ hv => hs.1 ▸ hs.2.get hv, trivial⟩
  binds := fun _ _ => sound_binds _ _
  literal := fun h he hs => ⟨_, Nat.le_refl _, hs, trivial, h, he⟩
  returning := fun _ hv hs => ⟨_, Nat.le_refl _, hs, sound_value.1 hv⟩

theorem sound_encloses (n : Nat) (scope outer : ScopeId) :
    (sound rule).Encloses n scope outer (n + 1) where
  done := fun hle hs hv =>
    ⟨_, Nat.le_of_succ_le hle, hs, fun _ => sound_value.2 (sound_unwrapped hv)⟩
  failed := fun hle hs _ _ => ⟨_, Nat.le_of_succ_le hle, hs, trivial⟩
  cut := fun _ _ => ⟨n, trivial, trivial⟩

theorem sound_entries (rule : LiteralRule) :
    (sound rule).Entries (fun n scope => scope < n) fun _ => literalCode rule where
  toPlaces := sound_places rule
  opened := by
    rintro _ f s _ hf ⟨rfl, hs⟩
    have hsize := size_create s (some f.scope)
    have hcreated : (s.create (some f.scope)).Sound rule :=
      hs.create fun _ h => Option.some.inj h ▸ hf.1
    exact ⟨s.size + 1, Nat.lt_succ_self _, ⟨hsize, hcreated⟩, hf.2.2,
      fun v hv => hv.mono (Nat.le_succ _), sound_encloses _ _ _⟩
  assigns := fun _ => sound_binds _ _

end Invariant

/-- A program keeps scopes sound, also where it fails, and has a sound value. -/
theorem Program.eval_sound {s : Scopes} (hs : s.Sound rule) (limit number : Nat) {p : Program}
    {scope : ScopeId} (hscope : scope < s.size) (hp : Stmt.AllLiterals rule ⟨number, []⟩ p) :
    (∀ after, (p.eval limit number scope s).scopes? = some after →
      s.size ≤ after.size ∧ after.Sound rule) ∧
    ∀ v after, p.eval limit number scope s = .done (some v) after → v.Sound rule after.size := by
  rw [← Tracing.plain_program]
  have hrun := Invariant.keeps_program (Invariant.sound_entries rule) limit hscope hp s ⟨rfl, hs⟩
  unfold Tracing.plain
  generalize Tracing.program limit p number scope s = run at hrun
  cases hrun with
  | done n r after es hle hafter hr =>
    obtain ⟨rfl, hafter⟩ := hafter
    refine ⟨?_, ?_⟩
    · rintro _ ⟨⟩
      exact ⟨hle, hafter⟩
    · rintro v _ ⟨⟩
      exact Invariant.sound_unwrapped hr
  | failed n e after es hle hafter =>
    obtain ⟨rfl, hafter⟩ := hafter
    refine ⟨?_, nofun⟩
    rintro _ ⟨⟩
    exact ⟨hle, hafter⟩
  | exhausted => exact ⟨nofun, nofun⟩

end

/-- The sessions that begin with one scope and evaluate allowed programs, each in
a scope that is there. -/
inductive Session.Reached (allowed : Program → Prop) : Session → Prop where
  | root : Session.Reached allowed Session.empty.root.2
  | evaluate (session later : Session) (limit : Nat) (p : Program) (scope : ScopeId)
      (reply : Reply) (h : Session.Reached allowed session) (hp : allowed p)
      (hscope : scope < session.scopes.size)
      (hlater : session.evaluate limit p scope = some (reply, later)) :
      Session.Reached allowed later

theorem Session.Reached.sound {rule : LiteralRule} {allowed : Program → Prop} {session : Session}
    (hrule : ∀ p number, allowed p → Stmt.AllLiterals rule ⟨number, []⟩ p)
    (h : session.Reached allowed) : session.scopes.Sound rule := by
  induction h with
  | root =>
    have hempty : Scopes.Sound rule #[] :=
      ⟨fun _ _ _ h => (nomatch h), fun _ _ _ _ h => (nomatch h)⟩
    exact hempty.create fun _ h => nomatch h
  | evaluate session later limit p scope reply _ hp hscope hlater ih =>
    have hkept := (Program.eval_sound ih limit session.programs hscope (hrule p _ hp)).1
    exact (hkept _ (evaluate_scopes hlater)).2

end Monkey
