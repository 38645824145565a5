import Monkey.Proofs.CallLimit
import Monkey.Proofs.ScopeGraph

/-!
# Expressions that bind nothing

An expression without a `let` of its own binds names in the scopes of calls only,
and nothing that was there before leads to these. So all that it leaves behind is
more scopes, and whatever is evaluated afterwards has the answer that it would
have had without. Two such operands, if both are integers, can be swapped.
-/

set_option autoImplicit false

namespace Monkey

/-- The value, where a function is known by its literal only. -/
def Value.unscoped : Value → Value
  | .function f => .function ⟨f.params, f.body, 0, f.origin⟩
  | .returned v => .returned v.unscoped
  | v => v

def Outcome.answer : Outcome Value → Option (Except EvalError Value)
  | .done v _ => some (.ok v.unscoped)
  | .failed e _ => some (.error e)
  | .exhausted => none

theorem letFree_untouched {limit : Nat} {site : Site} {scope : ScopeId} {e : Expr}
    (he : e.letFree = true) {s after : Scopes}
    (h : (e.eval (Closure.apply limit) site scope s).scopes? = some after) : s.Untouched after := by
  rw [← Tracing.plain_apply, ← Tracing.plain_expr] at h
  exact Tracing.inOrder_untouched (Tracing.inOrder_expr limit scope [] e site (.inr he)) h

theorem Scopes.Untouched.size_le {s t : Scopes} (h : s.Untouched t) : s.size ≤ t.size := by
  rcases Nat.lt_or_ge t.size s.size with hlt | hge
  · have hlast := h t.size hlt
    rw [Array.getElem?_eq_none (Nat.le_refl _), Array.getElem?_eq_getElem hlt] at hlast
    cases hlast
  · exact hge

/-- Makes room for `gap` scopes behind the first `base`. Either all places correspond,
or all stay as they are. -/
def Renumbering.shift (base gap : Nat) (moved : Prop) : Renumbering where
  number := fun i => if i < base then i else i + gap
  place := fun a b => moved ∨ a = b
  increasing := by
    intro i j h
    by_cases hj : j < base
    · rw [if_pos (Nat.lt_trans h hj), if_pos hj]
      exact h
    · rw [if_neg hj]
      split
      · exact Nat.lt_of_lt_of_le h (Nat.le_add_right j gap)
      · exact Nat.add_lt_add_right h gap
  child := fun _ h => h.imp_right fun h => by rw [h]

theorem Renumbering.shift_fixes (base gap : Nat) (moved : Prop) :
    (shift base gap moved).Fixes base :=
  ⟨fun _ hi => if_pos hi, fun _ => .inr rfl⟩

theorem Value.Corresponds.unscoped_eq {ρ : Renumbering} (hρ : ∀ a b, ρ.place a b → a = b)
    {count : Nat} {v u : Value} (h : v.Corresponds (Closure.Renumbered ρ count) u) :
    v.unscoped = u.unscoped := by
  induction h with
  | function f g h => rw [Value.unscoped, Value.unscoped, h.params, h.body, hρ _ _ h.origin]
  | returned v u _ ih => rw [Value.unscoped, Value.unscoped, ih]
  | _ => rfl

theorem Outcome.Corresponds.answer_eq {ρ : Renumbering} (hρ : ∀ a b, ρ.place a b → a = b)
    {count : Nat} {o p : Outcome Value}
    (h : o.Corresponds ρ.correspondence count ρ.correspondence.Values p) :
    o.answer = p.answer := by
  cases h with
  | done n v u s t _ _ hvalues =>
    rw [Outcome.answer, Outcome.answer, Value.Corresponds.unscoped_eq hρ hvalues]
  | failed n e s t _ _ => rfl
  | exhausted => rfl

section

variable {limit : Nat} {site site' : Site} {scope : ScopeId} {s t : Scopes}

theorem eval_shift (hs : s.Linked) (hscope : scope < s.size) (hst : s.Untouched t) {moved : Prop}
    (limit : Nat) (hsite : moved ∨ site = site') (e : Expr) :
    (e.eval (Closure.apply limit) site scope s).Corresponds
      (Renumbering.shift s.size (t.size - s.size) moved).correspondence s.size
      (Renumbering.shift s.size (t.size - s.size) moved).correspondence.Values
      (e.eval (Closure.apply limit) site' scope t) := by
  have hfixes := Renumbering.shift_fixes s.size (t.size - s.size) moved
  have hnext : ∀ k, (Renumbering.shift s.size (t.size - s.size) moved).number (s.size + k) =
      t.size + k := by
    intro k
    have hsize := hst.size_le
    change (if s.size + k < s.size then s.size + k else s.size + k + (t.size - s.size)) = _
    split <;> omega
  have heval := Expr.renumbered_eval (Closure.renumbered_apply _ limit) e site site' scope s.size
    hscope hsite s.size s t (Nat.le_refl _) ⟨rfl, hs.renumbered hst hfixes hnext⟩
  rwa [hfixes.number scope hscope] at heval

theorem answer_untouched (hs : s.Linked) (hscope : scope < s.size) (hst : s.Untouched t)
    (limit : Nat) (site : Site) (e : Expr) :
    (e.eval (Closure.apply limit) site scope t).answer =
      (e.eval (Closure.apply limit) site scope s).answer := by
  have hplace : ∀ a b, (Renumbering.shift s.size (t.size - s.size) False).place a b → a = b :=
    fun _ _ h => h.resolve_left id
  exact ((eval_shift hs hscope hst limit (.inr rfl) e).answer_eq hplace).symm

theorem int_untouched (hs : s.Linked) (hscope : scope < s.size) (hst : s.Untouched t) {e : Expr}
    {n : Int64} {after : Scopes}
    (he : e.eval (Closure.apply limit) site scope s = .done (.int n) after) (site' : Site) :
    ∃ after', e.eval (Closure.apply limit) site' scope t = .done (.int n) after' := by
  have hsite : True ∨ site = site' := .inl trivial
  have heval := eval_shift hs hscope hst limit hsite e
  rw [he] at heval
  generalize e.eval (Closure.apply limit) site' scope t = outcome at heval
  cases heval with
  | done m v u s' t' _ _ hvalues =>
    cases hvalues
    exact ⟨t', rfl⟩

theorem infix_ints (hs : s.Linked) (hscope : scope < s.size) {e f : Expr} (he : e.letFree = true)
    {m n : Int64} {p q : Site} {after after' : Scopes}
    (hm : e.eval (Closure.apply limit) p scope s = .done (.int m) after)
    (hn : f.eval (Closure.apply limit) q scope s = .done (.int n) after')
    {o : Operator} {r : Value} (hr : applyInfix o (.int m) (.int n) = .ok r) (site : Site) :
    ((Expr.infixOp o e f).eval (Closure.apply limit) site scope s).answer =
      some (.ok r.unscoped) := by
  obtain ⟨middle, hfirst⟩ := int_untouched hs hscope (fun _ _ => rfl) hm (site.child 0)
  have hmiddle : s.Untouched middle := letFree_untouched he (congrArg Outcome.scopes? hfirst)
  obtain ⟨last, hsecond⟩ := int_untouched hs hscope hmiddle hn (site.child 1)
  simp only [Expr.eval, Eval.operand, Eval.bind, hfirst, hsecond, hr]
  rfl

/-- In a linked table, the answer of an expression is the same whether or not a let-free
expression has been evaluated before, under any limits on active calls. So a let-free
call has the same answer twice, and the operands of a sum or a product, if they are
let-free and integers, can be swapped. -/
theorem letFree_undisturbed {s : Scopes} {scope : ScopeId} (hs : s.Linked)
    (hscope : scope < s.size) :
    (∀ (a b : Expr) (bound : Nat) (place : Site) (after : Scopes), b.letFree = true →
      (b.eval (Closure.apply bound) place scope s).scopes? = some after →
      ∀ (limit : Nat) (site : Site), (a.eval (Closure.apply limit) site scope after).answer =
        (a.eval (Closure.apply limit) site scope s).answer) ∧
    (∀ (f : Expr) (es : List Expr) (limit : Nat) (site : Site) (after : Scopes),
      (Expr.call f es).letFree = true →
      ((Expr.call f es).eval (Closure.apply limit) site scope s).scopes? = some after →
      ((Expr.call f es).eval (Closure.apply limit) site scope after).answer =
        ((Expr.call f es).eval (Closure.apply limit) site scope s).answer) ∧
    ∀ (a b : Expr) (m n : Int64) (bound bound' : Nat) (p q : Site) (after after' : Scopes),
      a.letFree = true → b.letFree = true →
      a.eval (Closure.apply bound) p scope s = .done (.int m) after →
      b.eval (Closure.apply bound') q scope s = .done (.int n) after' →
      ∀ o : Operator, o = .plus ∨ o = .times → ∃ r : Int64,
        ∀ limit : Nat, bound ≤ limit → bound' ≤ limit → ∀ site : Site,
          ((Expr.infixOp o a b).eval (Closure.apply limit) site scope s).answer =
            some (.ok (.int r)) ∧
          ((Expr.infixOp o b a).eval (Closure.apply limit) site scope s).answer =
            some (.ok (.int r)) := by
  have hafter : ∀ (a b : Expr) (bound : Nat) (place : Site) (after : Scopes), b.letFree = true →
      (b.eval (Closure.apply bound) place scope s).scopes? = some after →
      ∀ (limit : Nat) (site : Site), (a.eval (Closure.apply limit) site scope after).answer =
        (a.eval (Closure.apply limit) site scope s).answer := by
    intro a b bound place after hb hend limit site
    exact answer_untouched hs hscope (letFree_untouched hb hend) limit site a
  refine ⟨hafter, ?_, ?_⟩
  · intro f es limit site after hcall hend
    exact hafter _ _ limit site after hcall hend limit site
  · intro a b m n bound bound' p q after after' ha hb hm hn o ho
    have hswap : ∃ r, applyInfix o (.int m) (.int n) = .ok (.int r) ∧
        applyInfix o (.int n) (.int m) = .ok (.int r) := by
      rcases ho with rfl | rfl
      · exact ⟨m + n, rfl, by rw [Int64.add_comm]; rfl⟩
      · exact ⟨m * n, rfl, by rw [Int64.mul_comm]; rfl⟩
    obtain ⟨r, hr, hr'⟩ := hswap
    refine ⟨r, fun limit hbound hbound' site => ?_⟩
    rw [← Expr.eval_of_le hbound (by rw [hm]; nofun)] at hm
    rw [← Expr.eval_of_le hbound' (by rw [hn]; nofun)] at hn
    exact ⟨infix_ints hs hscope ha hm hn hr site, infix_ints hs hscope hb hn hm hr' site⟩

/-- A call whose scope stays behind, captured by the function that it yields: once more
it yields a function that captures another scope, but has the same literal. And two
calls that are summed either way. -/
theorem second_call_alike :
    let inner : Block := [.expr (.ident "y")]
    let make : Expr := .call (.fn [] [.bind "y" (.int 1), .expr (.fn ["x"] inner)]) []
    let one : Expr := .call (.fn [] [.bind "y" (.int 2), .expr (.int 1)]) []
    let two : Expr := .call (.fn ["x"] [.ret (some (.int 2))]) [.int 5]
    let site : Site := ⟨0, []⟩
    let literal : Site := ⟨0, [0, 0, 1, 0, 0]⟩
    let root : Scopes := #[⟨none, []⟩]
    let after : Scopes := #[⟨none, []⟩, ⟨some 0, [("y", .int 1)]⟩]
    let f : Closure := ⟨["x"], inner, 1, literal⟩
    let g : Closure := ⟨["x"], inner, 2, literal⟩
    make.eval (Closure.apply 1) site 0 root = .done (.function f) after ∧
      (∃ last, make.eval (Closure.apply 1) site 0 after = .done (.function g) last) ∧
      (make.eval (Closure.apply 1) site 0 after).answer =
        (make.eval (Closure.apply 1) site 0 root).answer ∧
      ∃ r, ∀ limit, 1 ≤ limit → ∀ site,
        ((Expr.infixOp .plus one two).eval (Closure.apply limit) site 0 root).answer =
          some (.ok (.int r)) ∧
        ((Expr.infixOp .plus two one).eval (Closure.apply limit) site 0 root).answer =
          some (.ok (.int r)) := by
  intro inner make one two site literal root after f g
  have hroot : root.Linked := Scopes.linked_empty.create fun _ h => nomatch h
  have hmake : make.eval (Closure.apply 1) site 0 root = .done (.function f) after := rfl
  obtain ⟨_, htwice, hsum⟩ := letFree_undisturbed hroot (show 0 < root.size by decide)
  refine ⟨hmake, ⟨_, rfl⟩, htwice _ _ 1 site after rfl (congrArg Outcome.scopes? hmake), ?_⟩
  obtain ⟨r, hr⟩ := hsum one two 1 2 1 1 site site _ _ rfl rfl rfl rfl .plus (.inl rfl)
  exact ⟨r, fun limit hlimit site => hr limit hlimit hlimit site⟩

end

end Monkey
