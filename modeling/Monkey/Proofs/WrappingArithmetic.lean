import Mathlib.Data.Int.ModEq
import Monkey.Eval
import Monkey.Syntax.Arithmetic

/-!
# Arithmetic that wraps around

Integers wrap around at 64 bits at every step, and still a whole tree of
negations, sums, differences and products comes to what its exact value wraps
around to, since wrapping is a homomorphism. Quotients are no part of that, but
they go wrong in one way only, which is a divisor that comes to zero.
-/

set_option autoImplicit false

namespace Monkey

/-- In every scope, wherever it stands and whatever calls do, the expression comes to this
integer and changes no scope. -/
def Expr.Yields (e : Expr) (n : Int64) : Prop :=
  ∀ (call : Call) (site : Site) (scope : ScopeId) (s : Scopes),
    e.eval call site scope s = .done (.int n) s

/-- In every scope, the expression divides by zero, and changes no scope. -/
def Expr.DividesByZero (e : Expr) : Prop :=
  ∀ (call : Call) (site : Site) (scope : ScopeId) (s : Scopes),
    e.eval call site scope s = .failed .divisionByZero s

namespace Expr

variable {e f : Expr} {m n r : Int64}

theorem Yields.unique (h : e.Yields m) (h' : e.Yields n) : m = n := by
  have heval := h (fun _ _ => .exhausted) ⟨0, []⟩ 0 #[]
  rw [h'] at heval
  cases heval
  rfl

theorem Yields.not_dividesByZero (h : e.Yields n) : ¬ e.DividesByZero := by
  intro h'
  have heval := h (fun _ _ => .exhausted) ⟨0, []⟩ 0 #[]
  rw [h'] at heval
  cases heval

theorem yields_int (n : Int64) : (Expr.int n).Yields n := fun _ _ _ _ => rfl

theorem Yields.negative (h : e.Yields n) : (Expr.prefixOp .minus e).Yields (-n) := by
  intro call site scope s
  simp only [Expr.eval, Eval.operand, Eval.bind, h call]
  rfl

theorem Yields.operation {o : Operator} (h : e.Yields m) (k : f.Yields n)
    (hr : applyInfix o (.int m) (.int n) = .ok (.int r)) : (Expr.infixOp o e f).Yields r := by
  intro call site scope s
  simp only [Expr.eval, Eval.operand, Eval.bind, h call, k call, hr]
  rfl

theorem DividesByZero.negative (h : e.DividesByZero) :
    (Expr.prefixOp .minus e).DividesByZero := by
  intro call site scope s
  simp only [Expr.eval, Eval.operand, Eval.bind, h call]

theorem DividesByZero.left (h : e.DividesByZero) (o : Operator) (f : Expr) :
    (Expr.infixOp o e f).DividesByZero := by
  intro call site scope s
  simp only [Expr.eval, Eval.operand, Eval.bind, h call]

theorem DividesByZero.right (h : f.DividesByZero) (o : Operator) (he : e.Yields m) :
    (Expr.infixOp o e f).DividesByZero := by
  intro call site scope s
  simp only [Expr.eval, Eval.operand, Eval.bind, he call, h call]

theorem dividesByZero_quotient (h : e.Yields m) (k : f.Yields 0) :
    (Expr.infixOp .divide e f).DividesByZero := by
  intro call site scope s
  simp only [Expr.eval, Eval.operand, Eval.bind, h call, k call]
  rfl

def Settled (e : Expr) (divisors : List Expr) : Prop :=
  ((∃ n, e.Yields n) ∧ ∀ d ∈ divisors, ∃ m, d.Yields m ∧ m ≠ 0) ∨
    (e.DividesByZero ∧ ∃ d ∈ divisors, d.Yields 0)

variable {ds es : List Expr}

theorem Settled.negative (h : e.Settled ds) : (Expr.prefixOp .minus e).Settled ds := by
  rcases h with ⟨⟨n, hn⟩, hds⟩ | ⟨hzero, hds⟩
  · exact .inl ⟨⟨-n, hn.negative⟩, hds⟩
  · exact .inr ⟨hzero.negative, hds⟩

theorem Settled.operation {o : Operator} {more : List Expr} (h : e.Settled ds) (k : f.Settled es)
    (hboth : ∀ m n, e.Yields m → f.Yields n → (Expr.infixOp o e f).Settled more) :
    (Expr.infixOp o e f).Settled (ds ++ (es ++ more)) := by
  rcases h with ⟨⟨m, hm⟩, hds⟩ | ⟨hzero, d, hd, hd0⟩
  · rcases k with ⟨⟨n, hn⟩, hes⟩ | ⟨hzero, d, hd, hd0⟩
    · rcases hboth m n hm hn with ⟨hr, hmore⟩ | ⟨hzero, d, hd, hd0⟩
      · refine .inl ⟨hr, fun d hd => ?_⟩
        rcases List.mem_append.1 hd with hd | hd
        · exact hds d hd
        · exact (List.mem_append.1 hd).elim (hes d) (hmore d)
      · exact .inr ⟨hzero, d, by simp [hd], hd0⟩
    · exact .inr ⟨hzero.right o hm, d, by simp [hd], hd0⟩
  · exact .inr ⟨hzero.left o f, d, by simp [hd], hd0⟩

theorem Settled.total {o : Operator} (h : e.Settled ds) (k : f.Settled es)
    (hr : ∀ m n, ∃ r, applyInfix o (.int m) (.int n) = .ok (.int r)) :
    (Expr.infixOp o e f).Settled (ds ++ es) := by
  have hboth : (Expr.infixOp o e f).Settled (ds ++ (es ++ [])) := by
    refine h.operation k fun m n hm hn => ?_
    obtain ⟨r, hr⟩ := hr m n
    exact .inl ⟨⟨r, hm.operation hn hr⟩, fun _ hd => nomatch hd⟩
  rwa [List.append_nil] at hboth

theorem Settled.quotient (h : e.Settled ds) (k : f.Settled es) :
    (Expr.infixOp .divide e f).Settled (ds ++ (es ++ [f])) := by
  refine h.operation k fun m n hm hn => ?_
  by_cases hzero : n = 0
  · subst hzero
    exact .inr ⟨dividesByZero_quotient hm hn, f, by simp, hn⟩
  · have hr : applyInfix .divide (.int m) (.int n) = .ok (.int (m / n)) := if_neg hzero
    refine .inl ⟨⟨m / n, hm.operation hn hr⟩, fun d hd => ?_⟩
    rw [List.mem_singleton.1 hd]
    exact ⟨n, hn, hzero⟩

end Expr

namespace Arithmetic

variable {quotients : Prop}

theorem settled (t : Arithmetic quotients) : t.expr.Settled t.divisors := by
  induction t with
  | literal n => exact .inl ⟨⟨n, Expr.yields_int n⟩, fun _ hd => nomatch hd⟩
  | negative a ih => exact ih.negative
  | sum a b iha ihb => exact iha.total ihb fun m n => ⟨m + n, rfl⟩
  | difference a b iha ihb => exact iha.total ihb fun m n => ⟨m - n, rfl⟩
  | product a b iha ihb => exact iha.total ihb fun m n => ⟨m * n, rfl⟩
  | quotient _ a b iha ihb => exact iha.quotient ihb

theorem dividesByZero_iff (t : Arithmetic quotients) :
    t.expr.DividesByZero ↔ ∃ d ∈ t.divisors, d.Yields 0 := by
  rcases t.settled with ⟨⟨n, hn⟩, hds⟩ | ⟨hzero, hds⟩
  · refine ⟨fun h => absurd h hn.not_dividesByZero, ?_⟩
    rintro ⟨d, hd, hzero⟩
    obtain ⟨m, hm, hne⟩ := hds d hd
    exact absurd (hm.unique hzero) hne
  · exact ⟨fun _ => hds, fun _ => hzero⟩

theorem yields_exact (t : Arithmetic False) : t.expr.Yields (Int64.ofInt t.exact) := by
  induction t with
  | literal n =>
    rw [exact, Int64.ofInt_toInt]
    exact Expr.yields_int n
  | negative a ih =>
    rw [exact, Int64.ofInt_neg]
    exact ih.negative
  | sum a b iha ihb =>
    rw [exact, Int64.ofInt_add]
    exact iha.operation ihb rfl
  | difference a b iha ihb =>
    rw [exact, Int64.ofInt_sub]
    exact iha.operation ihb rfl
  | product a b iha ihb =>
    rw [exact, Int64.ofInt_mul]
    exact iha.operation ihb rfl
  | quotient allowed _ _ => exact allowed.elim

end Arithmetic

/-! ### Integers of 64 bits -/

theorem wrapped_unique (z exact : Int) :
    (-2 ^ 63 ≤ z ∧ z < 2 ^ 63 ∧ z ≡ exact [ZMOD 2 ^ 64]) ↔ z = (Int64.ofInt exact).toInt := by
  rw [Int64.toInt_ofInt, eq_comm, Int.bmod_eq_iff (by decide), Int.modEq_comm,
    Int.modEq_iff_dvd]
  exact Iff.rfl

theorem toInt_quotient (m n : Int64) :
    (m / n).toInt = if m.toInt = -2 ^ 63 ∧ n.toInt = -1 then -2 ^ 63
      else m.toInt.tdiv n.toInt := by
  by_cases hm : m = Int64.minValue
  · subst hm
    by_cases hn : n = -1
    · subst hn
      rfl
    · have hne : n.toInt ≠ -1 := fun h => hn (Int64.toInt_inj.1 h)
      rw [if_neg fun h => hne h.2]
      exact Int64.toInt_div_of_ne_right _ n hn
  · have hne : m.toInt ≠ -2 ^ 63 := fun h => hm (Int64.toInt_inj.1 h)
    rw [if_neg fun h => hne h.1]
    exact Int64.toInt_div_of_ne_left m n hm

/-- A tree without quotients comes to the one integer of 64 bits that is congruent to its exact
value, wherever it is evaluated and whatever overflows on the way. With quotients, a tree comes
to an integer of 64 bits or divides by zero, which happens just when one of its divisors comes
to zero. All quotients are cut off towards zero, but for the one that wraps around. -/
theorem arithmetic_wraps_around :
    (∀ t : Arithmetic False, ∃ n, t.expr.Yields n ∧
      ∀ z : Int, (-2 ^ 63 ≤ z ∧ z < 2 ^ 63 ∧ z ≡ t.exact [ZMOD 2 ^ 64]) ↔ z = n.toInt) ∧
    (∀ t : Arithmetic True, (∃ n, t.expr.Yields n) ∨ t.expr.DividesByZero) ∧
    (∀ t : Arithmetic True, t.expr.DividesByZero ↔ ∃ d ∈ t.divisors, d.Yields 0) ∧
    ∀ (a b : Arithmetic True) (m n : Int64), a.expr.Yields m → b.expr.Yields n → n ≠ 0 →
      ∃ q, (Arithmetic.quotient trivial a b).expr.Yields q ∧
        q.toInt = if m.toInt = -2 ^ 63 ∧ n.toInt = -1 then -2 ^ 63
          else m.toInt.tdiv n.toInt := by
  refine ⟨fun t => ?_, fun t => ?_, fun t => t.dividesByZero_iff, ?_⟩
  · exact ⟨Int64.ofInt t.exact, t.yields_exact, fun z => wrapped_unique z t.exact⟩
  · exact t.settled.imp And.left And.left
  · intro a b m n ha hb hn
    have hr : applyInfix .divide (.int m) (.int n) = .ok (.int (m / n)) := if_neg hn
    exact ⟨m / n, ha.operation hb hr, toInt_quotient m n⟩

/-- One more than the largest integer is the smallest one, and so is that divided by minus
one. -/
theorem largest_and_one_divided :
    let past : Arithmetic True := .sum (.literal Int64.maxValue) (.literal 1)
    let minusOne : Arithmetic True := .negative (.literal 1)
    past.expr.Yields Int64.minValue ∧ minusOne.expr.Yields (-1) ∧
      ∃ q, (Arithmetic.quotient trivial past minusOne).expr.Yields q ∧ q.toInt = -2 ^ 63 := by
  intro past minusOne
  have hpast : past.expr.Yields Int64.minValue :=
    (Expr.yields_int Int64.maxValue).operation (Expr.yields_int 1) rfl
  have hminus : minusOne.expr.Yields (-1) := (Expr.yields_int 1).negative
  obtain ⟨q, hq, hvalue⟩ := arithmetic_wraps_around.2.2.2 past minusOne _ _ hpast hminus
    (by decide)
  rw [if_pos (by decide)] at hvalue
  exact ⟨hpast, hminus, q, hq, hvalue⟩

end Monkey
