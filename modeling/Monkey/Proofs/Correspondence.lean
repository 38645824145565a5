import Monkey.Proofs.History

/-!
# Two evaluations side by side

When two evaluations differ only in ways that no program can observe, they go on
in step: what one has corresponds to what the other has, at every point. Which
functions and which scopes correspond is a parameter, and so is what has come
about on the way (a world, of which there may be later ones). All other values
correspond only if they are equal, since programs can tell them apart.
-/

set_option autoImplicit false

namespace Monkey

/-- The values are equal, but for functions, which only correspond. -/
inductive Value.Corresponds (closure : Closure → Closure → Prop) : Value → Value → Prop where
  | function (f g : Closure) (h : closure f g) :
      Value.Corresponds closure (.function f) (.function g)
  | returned (v u : Value) (h : Value.Corresponds closure v u) :
      Value.Corresponds closure (.returned v) (.returned u)
  | error (e : EvalError) : Value.Corresponds closure (.error e) (.error e)
  | int (n : Int64) : Value.Corresponds closure (.int n) (.int n)
  | bool (b : Bool) : Value.Corresponds closure (.bool b) (.bool b)
  | null : Value.Corresponds closure .null .null

def Unreturned (r : Option Value) : Prop := ∀ v, r ≠ some (.returned v)

/-- Goes on with the value of a statement, unless a `return` ends the statements. -/
def Eval.statement (value : Eval (Option Value)) (next : Option Value → Eval (Option Value)) :
    Eval (Option Value) :=
  value.bind fun
    | some (.returned v) => pure (some (.returned v))
    | r => next r

def CorrespondingOptions (closure : Closure → Closure → Prop) : Option Value → Option Value → Prop
  | none, none => True
  | some a, some b => a.Corresponds closure b
  | _, _ => False

structure Correspondence (World : Type) where
  later : World → World → Prop
  refl : ∀ w, later w w
  trans : ∀ {u v w}, later u v → later v w → later u w
  scopes : World → Scopes → Scopes → Prop
  closure : World → Closure → Closure → Prop
  mono : ∀ {u w f g}, later u w → closure u f g → closure w f g

namespace Correspondence

variable {World : Type} (R : Correspondence World)

def Values (w : World) (a b : Value) : Prop := a.Corresponds (R.closure w) b

def Results (w : World) (a b : Option Value) : Prop := CorrespondingOptions (R.closure w) a b

inductive Lists (w : World) : List Value → List Value → Prop where
  | nil : Lists w [] []
  | cons (a b : Value) (as bs : List Value) (h : R.Values w a b) (hs : Lists w as bs) :
      Lists w (a :: as) (b :: bs)

end Correspondence

section

variable {closure closure' : Closure → Closure → Prop} {a b c d : Value}

namespace Value.Corresponds

theorem imp (h : a.Corresponds closure b) (himp : ∀ f g, closure f g → closure' f g) :
    a.Corresponds closure' b := by
  induction h with
  | function f g h => exact .function f g (himp f g h)
  | returned v u _ ih => exact .returned v u ih
  | error e => exact .error e
  | int n => exact .int n
  | bool b => exact .bool b
  | null => exact .null

theorem truthy (h : a.Corresponds closure b) : a.truthy = b.truthy := by
  cases h <;> rfl

theorem unwrap (h : a.Corresponds closure b) : a.unwrap.Corresponds closure b.unwrap := by
  cases h with
  | returned v u h => exact h
  | function f g h => exact .function f g h
  | error e => exact .error e
  | int n => exact .int n
  | bool b => exact .bool b
  | null => exact .null

theorem applyPrefix (o : Operator) (h : a.Corresponds closure b) :
    Monkey.applyPrefix o a = Monkey.applyPrefix o b := by
  cases h <;> cases o <;> rfl

theorem applyInfix (o : Operator) (h : a.Corresponds closure b) (k : c.Corresponds closure d) :
    Monkey.applyInfix o a c = Monkey.applyInfix o b d := by
  cases h <;> cases k <;> first | rfl | (cases o <;> rfl)

end Value.Corresponds

namespace CorrespondingOptions

variable {x y : Option Value}

theorem eq_none (h : CorrespondingOptions closure none y) : y = none := by
  match y, h with
  | none, _ => rfl

theorem exists_some (h : CorrespondingOptions closure (some a) y) :
    ∃ b, y = some b ∧ a.Corresponds closure b := by
  match y, h with
  | some b, h => exact ⟨b, rfl, h⟩

theorem imp (h : CorrespondingOptions closure x y) (himp : ∀ f g, closure f g → closure' f g) :
    CorrespondingOptions closure' x y := by
  match x, y, h with
  | none, none, _ => trivial
  | some _, some _, h => exact Value.Corresponds.imp h himp

theorem getD (h : CorrespondingOptions closure x y) :
    (x.getD .null).Corresponds closure (y.getD .null) := by
  match x, y, h with
  | none, none, _ => exact .null
  | some _, some _, h => exact h

theorem unwrap (h : CorrespondingOptions closure x y) :
    CorrespondingOptions closure (x.map Value.unwrap) (y.map Value.unwrap) := by
  match x, y, h with
  | none, none, _ => trivial
  | some _, some _, h => exact Value.Corresponds.unwrap h

end CorrespondingOptions

theorem Value.corresponds_self (h : ∀ f, a.closure? = some f → closure f f) :
    a.Corresponds closure a := by
  induction a with
  | function f => exact .function f f (h f rfl)
  | returned v ih => exact .returned v v (ih h)
  | error e => exact .error e
  | int n => exact .int n
  | bool b => exact .bool b
  | null => exact .null

theorem CorrespondingOptions.self {x : Option Value}
    (h : ∀ v f, x = some v → v.closure? = some f → closure f f) :
    CorrespondingOptions closure x x := by
  cases x with
  | none => trivial
  | some v => exact Value.corresponds_self fun f hf => h v f rfl hf

theorem Value.Corresponds.eq (h : a.Corresponds closure b)
    (heq : ∀ f g, closure f g → f = g) : a = b := by
  induction h with
  | function f g h => rw [heq f g h]
  | returned v u _ ih => rw [ih]
  | _ => rfl

theorem CorrespondingOptions.eq {x y : Option Value} (h : CorrespondingOptions closure x y)
    (heq : ∀ f g, closure f g → f = g) : x = y := by
  cases x with
  | none => exact h.eq_none.symm
  | some a =>
    obtain ⟨b, rfl, hab⟩ := h.exists_some
    rw [hab.eq heq]

theorem Value.Atom.corresponds (h : a.Atom) : a.Corresponds closure a := by
  cases a with
  | function f => exact h.elim
  | returned v => exact h.elim
  | error e => exact h.elim
  | int n => exact .int n
  | bool b => exact .bool b
  | null => exact .null

end

section

variable {World : Type} {α β : Type} {R : Correspondence World} {w u : World}

namespace Correspondence

theorem Values.mono {a b : Value} (h : R.Values w a b) (hu : R.later w u) : R.Values u a b :=
  Value.Corresponds.imp h fun _ _ => R.mono hu

theorem Results.mono {a b : Option Value} (h : R.Results w a b) (hu : R.later w u) :
    R.Results u a b :=
  CorrespondingOptions.imp h fun _ _ => R.mono hu

theorem Lists.mono {as bs : List Value} (h : R.Lists w as bs) (hu : R.later w u) :
    R.Lists u as bs := by
  induction h with
  | nil => exact .nil
  | cons a b as bs h _ ih => exact .cons a b as bs (h.mono hu) ih

theorem Lists.length_eq {as bs : List Value} (h : R.Lists w as bs) : as.length = bs.length := by
  induction h with
  | nil => rfl
  | cons a b as bs _ _ ih => rw [List.length_cons, List.length_cons, ih]

end Correspondence

/-- Both have a result, or both the same error, and the scopes they leave correspond
in a later world; or both were cut off. -/
inductive Outcome.Corresponds (R : Correspondence World) (w : World)
    (good : World → α → α → Prop) : Outcome α → Outcome α → Prop where
  | done (u : World) (x y : α) (s t : Scopes) (hlater : R.later w u) (hscopes : R.scopes u s t)
      (hgood : good u x y) : Outcome.Corresponds R w good (.done x s) (.done y t)
  | failed (u : World) (e : EvalError) (s t : Scopes) (hlater : R.later w u)
      (hscopes : R.scopes u s t) : Outcome.Corresponds R w good (.failed e s) (.failed e t)
  | exhausted : Outcome.Corresponds R w good .exhausted .exhausted

/-- From corresponding scopes, in this world or a later one, the computations go on in step. -/
def Eval.Corresponds (R : Correspondence World) (w : World) (good : World → α → α → Prop)
    (m n : Eval α) : Prop :=
  ∀ u s t, R.later w u → R.scopes u s t → (m s).Corresponds R u good (n t)

theorem Outcome.Corresponds.earlier {good : World → α → α → Prop} {o p : Outcome α}
    (h : o.Corresponds R u good p) (hu : R.later w u) : o.Corresponds R w good p := by
  cases h with
  | done v x y s t hv hscopes hgood => exact .done v x y s t (R.trans hu hv) hscopes hgood
  | failed v e s t hv hscopes => exact .failed v e s t (R.trans hu hv) hscopes
  | exhausted => exact .exhausted

namespace Eval.Corresponds

variable {good : World → α → α → Prop} {fine : World → β → β → Prop}

theorem pure {x y : α} (h : ∀ u, R.later w u → good u x y) :
    (Eval.pure x).Corresponds R w good (Eval.pure y) :=
  fun u s t hu hst => .done u x y s t (R.refl u) hst (h u hu)

theorem fail (e : EvalError) :
    (Eval.fail e : Eval α).Corresponds R w good (Eval.fail e) :=
  fun u s t _ hst => .failed u e s t (R.refl u) hst

theorem exhausted : (Eval.exhausted : Eval α).Corresponds R w good Eval.exhausted :=
  fun _ _ _ _ _ => .exhausted

theorem ofExcept {x : Except EvalError α} (h : ∀ r, x = .ok r → ∀ u, good u r r) :
    (Eval.ofExcept x).Corresponds R w good (Eval.ofExcept x) := by
  cases x with
  | error e => exact fail e
  | ok r => exact pure fun u _ => h r rfl u

theorem bind {m n : Eval α} {next next' : α → Eval β} (h : m.Corresponds R w good n)
    (hnext : ∀ x y u, R.later w u → good u x y → (next x).Corresponds R u fine (next' y)) :
    (m.bind next).Corresponds R w fine (n.bind next') := by
  intro u s t hu hst
  have hfirst := h u s t hu hst
  unfold Eval.bind
  generalize m s = first at hfirst
  generalize n t = first' at hfirst
  cases hfirst with
  | done v x y s' t' hv hscopes hgood =>
    have hrest := hnext x y v (R.trans hu hv) hgood v s' t' (R.refl v) hscopes
    exact hrest.earlier hv
  | failed v e s' t' hv hscopes => exact .failed v e s' t' hv hscopes
  | exhausted => exact .exhausted

theorem operand {m n : Eval Value} {next next' : Value → Eval Value}
    (h : m.Corresponds R w R.Values n)
    (hnext : ∀ a b u, R.later w u → R.Values u a b → (next a).Corresponds R u R.Values (next' b)) :
    (m.operand next).Corresponds R w R.Values (n.operand next') := by
  apply h.bind
  intro a b u hu hab
  have hvalues := hnext a b u hu hab
  cases hab with
  | returned a b hab => exact pure fun v hv => .returned a b (Correspondence.Values.mono hab hv)
  | _ => exact hvalues

theorem applyPrefix (o : Operator) {a b : Value} (h : R.Values w a b) :
    (Eval.ofExcept (Monkey.applyPrefix o a)).Corresponds R w R.Values
      (Eval.ofExcept (Monkey.applyPrefix o b)) := by
  rw [Value.Corresponds.applyPrefix o h]
  exact ofExcept fun _ hr _ => (applyPrefix_atom hr).corresponds

theorem applyInfix (o : Operator) {a b c d : Value} (h : R.Values w a b) (k : R.Values w c d) :
    (Eval.ofExcept (Monkey.applyInfix o a c)).Corresponds R w R.Values
      (Eval.ofExcept (Monkey.applyInfix o b d)) := by
  rw [Value.Corresponds.applyInfix o h k]
  exact ofExcept fun _ hr _ => (applyInfix_atom hr).corresponds

theorem block {m n : Eval (Option Value)} (h : m.Corresponds R w R.Results n) :
    (m.bind fun r => Eval.pure (r.getD .null)).Corresponds R w R.Values
      (n.bind fun r => Eval.pure (r.getD .null)) :=
  h.bind fun _ _ _ _ hr => pure fun _ hv =>
    Correspondence.Values.mono (CorrespondingOptions.getD hr) hv

theorem bound {m n : Eval Value} {i j : ScopeId} {name name' : String}
    (h : m.Corresponds R w R.Values n)
    (hassign : ∀ a b u, R.later w u → R.Values u a b →
      (Eval.assign i name a).Corresponds R u (fun _ _ _ => True) (Eval.assign j name' b)) :
    (m.bind fun
      | .returned v => Eval.pure (some (.returned v))
      | v => (Eval.assign i name v).bind fun _ => Eval.pure none).Corresponds R w R.Results
      (n.bind fun
        | .returned v => Eval.pure (some (.returned v))
        | v => (Eval.assign j name' v).bind fun _ => Eval.pure none) := by
  apply h.bind
  intro a b u hu hab
  have hbinding := hassign a b u hu hab
  cases hab with
  | returned a b hab => exact pure fun v hv => .returned a b (Correspondence.Values.mono hab hv)
  | _ => exact hbinding.bind fun _ _ _ _ _ => pure fun _ _ => trivial

theorem statement {m n : Eval (Option Value)} {next next' : Option Value → Eval (Option Value)}
    (h : m.Corresponds R w R.Results n)
    (hnext : ∀ r q u, R.later w u → Unreturned r → R.Results u r q →
      (next r).Corresponds R u R.Results (next' q)) :
    (m.statement next).Corresponds R w R.Results (n.statement next') := by
  apply h.bind
  intro r q u hu hr
  match r, q, hr with
  | none, none, hr => exact hnext none none u hu nofun hr
  | some v, some x, hv =>
    have hrest := hnext (some v) (some x) u hu
    cases hv with
    | returned v x hv =>
      exact pure fun last hlast => .returned v x (Correspondence.Values.mono hv hlast)
    | function f g hf => exact hrest nofun (.function f g hf)
    | error e => exact hrest nofun (.error e)
    | int n => exact hrest nofun (.int n)
    | bool b => exact hrest nofun (.bool b)
    | null => exact hrest nofun .null

end Eval.Corresponds

end

/-! ### Looking names up -/

theorem Scopes.get_corresponds {closure : Closure → Closure → Prop} {s t : Scopes}
    {i j : ScopeId} {name name' : String} {a b : Scope} {number : ScopeId → ScopeId}
    (ha : s[i]? = some a) (hb : t[j]? = some b)
    (hbound : CorrespondingOptions closure (a.get name) (b.get name'))
    (houter : b.outer = a.outer.map number)
    (holder : ∀ outer, a.outer = some outer → (number outer < j ↔ outer < i))
    (hrest : ∀ outer, a.outer = some outer → a.get name = none → outer < i →
      CorrespondingOptions closure (s.get outer name) (t.get (number outer) name')) :
    CorrespondingOptions closure (s.get i name) (t.get j name') := by
  cases hv : a.get name with
  | some v =>
    rw [hv] at hbound
    obtain ⟨u, hu, hvu⟩ := hbound.exists_some
    rw [get_bound ha hv, get_bound hb hu]
    exact hvu
  | none =>
    rw [hv] at hbound
    have hu := hbound.eq_none
    cases hout : a.outer with
    | none =>
      rw [hout] at houter
      rw [get_free ha hv hout, get_free hb hu houter]
      trivial
    | some outer =>
      rw [hout] at houter
      by_cases hlt : outer < i
      · rw [get_outward ha hv hout hlt, get_outward hb hu houter ((holder outer hout).2 hlt)]
        exact hrest outer hout hv hlt
      · have hlt' : ¬ number outer < j := fun h => hlt ((holder outer hout).1 h)
        rw [get_stuck ha hv hout hlt, get_stuck hb hu houter hlt']
        trivial

end Monkey
