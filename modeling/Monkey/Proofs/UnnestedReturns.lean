import Monkey.Proofs.Returns
import Monkey.Proofs.Frame
import Monkey.Proofs.RoundTrip
import Monkey.Eval.Raising

/-!
# Programs whose returns are unnested

No wrapped value surfaces if no `return` stands in the operand of another one,
neither in the program nor in the bodies of the functions that it can call. The
operand of a `return` is then free of returns, so its value comes from calls, and
those yield no wrapped values as long as none was wrapped twice.
-/

set_option autoImplicit false

namespace Monkey

def unnestedBody : LiteralRule := fun _ _ body => Stmt.allUnnested body = true

mutual

theorem Expr.literals_unnested : (e : Expr) → (site : Site) → e.unnested = true →
    e.Literals unnestedBody site
  | .ident name, site, h => trivial
  | .int value, site, h => trivial
  | .bool value, site, h => trivial
  | .prefixOp o e, site, h => Expr.literals_unnested e _ h
  | .infixOp o e f, site, h => by
    simp only [Expr.unnested, Bool.and_eq_true] at h
    exact ⟨Expr.literals_unnested e _ h.1, Expr.literals_unnested f _ h.2⟩
  | .cond c a none, site, h => by
    simp only [Expr.unnested, Bool.and_eq_true] at h
    exact ⟨Expr.literals_unnested c _ h.1, Stmt.allLiterals_unnested a _ h.2⟩
  | .cond c a (some b), site, h => by
    simp only [Expr.unnested, Bool.and_eq_true] at h
    exact ⟨Expr.literals_unnested c _ h.1.1, Stmt.allLiterals_unnested a _ h.1.2,
      Stmt.allLiterals_unnested b _ h.2⟩
  | .fn ps body, site, h => ⟨h, Stmt.allLiterals_unnested body _ h⟩
  | .call f es, site, h => by
    simp only [Expr.unnested, Bool.and_eq_true] at h
    exact ⟨Expr.literals_unnested f _ h.1, Expr.allLiterals_unnested es _ h.2⟩

theorem Expr.allLiterals_unnested : (es : List Expr) → (site : Site) →
    Expr.allUnnested es = true → Expr.AllLiterals unnestedBody site es
  | [], site, h => trivial
  | e :: es, site, h => by
    simp only [Expr.allUnnested, Bool.and_eq_true] at h
    exact ⟨Expr.literals_unnested e _ h.1, Expr.allLiterals_unnested es _ h.2⟩

theorem Stmt.literals_unnested : (s : Stmt) → (site : Site) → s.unnested = true →
    s.Literals unnestedBody site
  | .bind name e, site, h => Expr.literals_unnested e _ h
  | .ret none, site, h => trivial
  | .ret (some e), site, h => by
    simp only [Stmt.unnested, Bool.and_eq_true] at h
    exact Expr.literals_unnested e _ h.2
  | .expr e, site, h => Expr.literals_unnested e _ h
  | .block body, site, h => Stmt.allLiterals_unnested body _ h

theorem Stmt.allLiterals_unnested : (ss : List Stmt) → (site : Site) →
    Stmt.allUnnested ss = true → Stmt.AllLiterals unnestedBody site ss
  | [], site, h => trivial
  | s :: ss, site, h => by
    simp only [Stmt.allUnnested, Bool.and_eq_true] at h
    exact ⟨Stmt.literals_unnested s _ h.1, Stmt.allLiterals_unnested ss _ h.2⟩

end

theorem calm_parts {inside : Prop} {a b c d : Bool}
    (h : (a && b) = true ∧ (inside → (c && d) = true)) :
    (a = true ∧ (inside → c = true)) ∧ (b = true ∧ (inside → d = true)) := by
  simp only [Bool.and_eq_true] at h
  exact ⟨⟨h.1.1, fun hi => (h.2 hi).1⟩, h.1.2, fun hi => (h.2 hi).2⟩

/-- The code is unnested; in the operand of a `return`, it is free of returns. -/
def calmCode (inside : Bool) : Code where
  expr := fun _ e => e.unnested = true ∧ (inside = true → e.returnFree = true)
  exprs := fun _ es => Expr.allUnnested es = true ∧ (inside = true → Expr.allReturnFree es = true)
  stmt := fun _ s => s.unnested = true ∧ (inside = true → s.returnFree = true)
  stmts := fun _ ss => Stmt.allUnnested ss = true ∧ (inside = true → Stmt.allReturnFree ss = true)
  prefixOp := id
  infixOp := calm_parts
  cond := calm_parts
  condElse := fun h => ⟨(calm_parts (calm_parts h).1).1, (calm_parts (calm_parts h).1).2,
    (calm_parts h).2⟩
  call := calm_parts
  cons := calm_parts
  bind := id
  only := id
  block := id
  seq := calm_parts

namespace Invariant

/-- No wrapper is put around a wrapped value, so no value has two of them; out of the operand of
a `return`, no value is on its way. -/
def calm : Invariant Nat where
  kept := fun n es m => n ≤ m ∧ ¬Rewrapped es
  cut := fun _ es _ => ¬Rewrapped es
  fits := fun n s => s.size = n ∧ s.Sound unnestedBody
  ready := fun _ => True
  plain := fun n v => v.Plain unnestedBody n
  out := fun inside n v => inside = false ∧ v.Plain unnestedBody n
  bad := fun _ => True
  kept_nil := fun n => ⟨Nat.le_refl n, rewrapped_nil⟩
  kept_append := by
    rintro n m k es fs ⟨hle, hes⟩ ⟨hle', hfs⟩
    exact ⟨Nat.le_trans hle hle', by simp [hes, hfs]⟩
  cut_nil := fun _ => rewrapped_nil
  cut_append := by
    rintro n m k es fs ⟨_, hes⟩ hfs
    simp [hes, hfs]
  plain_kept := fun hkept h => h.mono hkept.1
  atom := Value.Atom.plain
  out_of_plain := fun _ h => h.elim
  typed := fun _ => trivial

theorem calm_operand {n : Nat} {v : Value} (h : calm.value true n v) : v.Plain unnestedBody n := by
  cases v with
  | returned v => exact nomatch h.1
  | _ => exact h.2

theorem calm_unwrapped {n : Nat} {v : Value} (h : calm.unwrapped n v) :
    v.Plain unnestedBody n :=
  h.elim And.right And.right

theorem calm_binds (n : Nat) (scope : ScopeId) : calm.Binds n scope := by
  rintro name v s hv ⟨rfl, hs⟩
  exact ⟨s.size, ⟨Nat.le_refl _, by simp [Event.Rewraps]⟩, ⟨size_set s scope name v, hs.set hv⟩,
    trivial⟩

theorem calm_places : calm.Places (fun n scope => scope < n) calmCode where
  ready := fun _ => trivial
  later := fun h hkept _ => Nat.lt_of_lt_of_le h hkept.1
  operand := by
    rintro inside site e ⟨hunnested, -⟩
    simp only [Stmt.unnested, Bool.and_eq_true] at hunnested
    exact ⟨hunnested.2, fun _ => hunnested.1⟩
  lookup := by
    rintro inside n scope site name s _ _ ⟨rfl, hs⟩
    exact ⟨fun v hv => hs.get hv, trivial⟩
  binds := fun _ _ => calm_binds _ _
  literal := by
    rintro inside n scope site ps body s hscope ⟨hunnested, -⟩ hs
    exact ⟨n, ⟨Nat.le_refl n, by simp [Event.Rewraps]⟩, hs, trivial, hscope,
      Expr.literals_unnested (.fn ps body) site hunnested⟩
  returning := by
    rintro inside n site e v s ⟨-, hfree⟩ hv hs
    have hplain := calm_operand hv
    have houtside : inside = false := Bool.eq_false_iff.2 fun h => Bool.false_ne_true (hfree h)
    exact ⟨n, ⟨Nat.le_refl n, by simp [Event.Rewraps, hplain.not_returned]⟩, hs, houtside, hplain⟩

theorem calm_encloses (n : Nat) (scope outer : ScopeId) : calm.Encloses n scope outer (n + 1) := by
  constructor
  · rintro m s es v ⟨hle, hes⟩ hs hv
    exact ⟨m, ⟨Nat.le_of_succ_le hle, by simp [hes, Event.Rewraps]⟩, hs,
      fun _ => value_of_plain trivial (calm_unwrapped hv)⟩
  · rintro m s es e ⟨hle, hes⟩ hs _ _
    exact ⟨m, ⟨Nat.le_of_succ_le hle, by simp [hes, Event.Rewraps]⟩, hs, trivial⟩
  · intro m es hes _
    have hnone : ¬Rewrapped es := hes
    exact ⟨m, by simp [calm, hnone, Event.Rewraps], trivial⟩

theorem calm_entries : calm.Entries (fun n scope => scope < n) calmCode where
  toPlaces := calm_places
  opened := by
    rintro _ f s _ hf ⟨rfl, hs⟩
    have hsize := size_create s (some f.scope)
    have hcreated : (s.create (some f.scope)).Sound unnestedBody :=
      hs.create fun _ h => Option.some.inj h ▸ hf.1
    exact ⟨s.size + 1, Nat.lt_succ_self _, ⟨hsize, hcreated⟩, ⟨hf.2.1, nofun⟩,
      fun v hv => hv.mono (Nat.le_succ _), calm_encloses _ _ _⟩
  assigns := fun _ => calm_binds _ _

end Invariant

/-- With unnested returns, no wrapper is put around a wrapped value. -/
theorem Tracing.not_rewrapped_program {s : Scopes} (hs : s.Sound unnestedBody) (limit number : Nat)
    {p : Program} {scope : ScopeId} (hscope : scope < s.size) (hp : Stmt.allUnnested p = true) :
    ¬Rewrapped (program limit p number scope s).events := by
  have hcode : (calmCode false).stmts ⟨number, []⟩ p := ⟨hp, nofun⟩
  have hrun := Invariant.keeps_program Invariant.calm_entries limit hscope hcode s ⟨rfl, hs⟩
  generalize program limit p number scope s = run at hrun
  cases hrun with
  | done _ _ _ _ hkept => exact hkept.2
  | failed _ _ _ _ hkept => exact hkept.2
  | exhausted _ _ hcut => exact hcut

theorem evaluate_finished (session : Session) (task : Task) (r : Option Value) :
    (∃ later, session.evaluate task.limit task.program task.scope = some (.finished r, later)) ↔
      ∃ after, (session.run task).outcome = .done r after := by
  rw [session.run_outcome task]
  unfold Session.evaluate
  cases task.program.eval task.limit session.programs task.scope session.scopes <;> simp

theorem rewrapped_iff (es : List Event) :
    Rewrapped es ↔ ∃ v, .returning (.returned v) ∈ es := by
  constructor
  · rintro ⟨event, hevent, h⟩
    cases event with
    | returning v =>
      cases v with
      | returned w => exact ⟨w, hevent⟩
      | _ => cases h
    | _ => exact h.elim
  · rintro ⟨v, hv⟩
    exact ⟨_, hv, rfl⟩

theorem escaped_iff (es : List Event) :
    Escaped es ↔ ∃ scope v, .left scope (.ok (.returned v)) ∈ es := by
  constructor
  · rintro ⟨event, hevent, h⟩
    cases event with
    | left scope result =>
      rcases result with error | v
      · exact h.elim
      · cases v with
        | returned w => exact ⟨scope, w, hevent⟩
        | _ => cases h
    | _ => exact h.elim
  · rintro ⟨scope, v, hv⟩
    exact ⟨_, hv, rfl⟩

/-- In a session, the value of a program or of a call on the way is wrapped if and
only if a `return` on the way has an operand whose value is wrapped. With unnested
returns, in this program and in those before, there is no such `return`. -/
theorem wrapped_value_surfaces_iff (session : Session) (task : Task)
    (hreached : session.Reached fun _ => True) (hscope : task.scope < session.scopes.size) :
    (((∃ v later, session.evaluate task.limit task.program task.scope =
          some (.finished (some (.returned v)), later)) ∨
        ∃ scope v, .left scope (.ok (.returned v)) ∈ (session.run task).events) ↔
      ∃ v, .returning (.returned v) ∈ (session.run task).events) ∧
    ((session.Reached fun p => Stmt.allUnnested p = true) → Stmt.allUnnested task.program = true →
      ∀ v, .returning (.returned v) ∉ (session.run task).events) := by
  constructor
  · have hsound := hreached.sound fun p number _ => Stmt.allLiterals_any p ⟨number, []⟩
    have hiff := Tracing.rewrapped_program hsound task.limit session.programs hscope
      (Stmt.allLiterals_any task.program _)
    rw [rewrapped_iff, escaped_iff, or_comm] at hiff
    simp only [evaluate_finished]
    exact hiff.symm
  · intro hunnested hprogram v hv
    have hsound := hunnested.sound fun p number hp => Stmt.allLiterals_unnested p ⟨number, []⟩ hp
    have hnone := Tracing.not_rewrapped_program hsound task.limit session.programs hscope hprogram
    exact hnone ((rewrapped_iff _).2 ⟨v, hv⟩)

/-- A program shows a wrapped value, and a call ends the program that made it. -/
theorem nested_return_surfaces :
    (∃ p later, Program.ofBytes (Bytes.ofText "return if (true) \x7b return 5 \x7d") = .ok p ∧
      Session.empty.root.2.evaluate 0 p 0 =
        some (.finished (some (.returned (.int 5))), later)) ∧
    ∃ p later, Program.ofBytes
        (Bytes.ofText "fn() \x7b return if (true) \x7b return 5 \x7d \x7d(); 7") = .ok p ∧
      Session.empty.root.2.evaluate 1 p 0 = some (.finished (some (.int 5)), later) := by
  constructor
  · let p : Program := [.ret (some (.cond (.bool true) [.ret (some (.int 5))] none))]
    have htext : p.text = "return if (true) \x7b return 5 \x7d" := rfl
    have hwell : p.WellFormed := rfl
    have hread := ofBytes_text hwell
    rw [htext] at hread
    exact ⟨p, ⟨#[⟨none, []⟩], 1⟩, hread, rfl⟩
  · let p : Program := [.expr (.call (.fn []
      [.ret (some (.cond (.bool true) [.ret (some (.int 5))] none))]) []), .expr (.int 7)]
    have htext : p.text = "fn() \x7b return if (true) \x7b return 5 \x7d \x7d(); 7" := rfl
    have hwell : p.WellFormed := rfl
    have hread := ofBytes_text hwell
    rw [htext] at hread
    exact ⟨p, ⟨#[⟨none, []⟩, ⟨some 0, []⟩], 1⟩, hread, rfl⟩

/-- The first of these programs, and one whose returns are unnested. -/
theorem nested_return_rewraps :
    let session := Session.empty.root.2
    let nested : Task := ⟨0, [.ret (some (.cond (.bool true) [.ret (some (.int 5))] none))], 0⟩
    let unnested : Task :=
      ⟨1, [.expr (.call (.fn ["x"] [.ret (some (.ident "x"))]) [.int 5])], 0⟩
    (session.Reached fun _ => True) ∧ 0 < session.scopes.size ∧
      (∃ v, .returning (.returned v) ∈ (session.run nested).events) ∧
      ∀ v, .returning (.returned v) ∉ (session.run unnested).events := by
  intro session nested unnested
  have hscope : 0 < session.scopes.size := by decide
  have hvalue : session.evaluate nested.limit nested.program nested.scope =
      some (.finished (some (.returned (.int 5))), ⟨#[⟨none, []⟩], 1⟩) := rfl
  have hprogram : Stmt.allUnnested unnested.program = true := by decide
  exact ⟨.root, hscope, (wrapped_value_surfaces_iff session nested .root hscope).1.1
    (.inl ⟨_, _, hvalue⟩),
    (wrapped_value_surfaces_iff session unnested .root hscope).2 .root hprogram⟩

end Monkey
