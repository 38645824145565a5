import Monkey.Syntax.Names
import Monkey.Value

/-!
# Renaming parameters

A parameter gets another name in the whole of a function literal that has it:
where the literal lists it, where its body uses or binds the name, and in all
literals inside. Outside of the chosen literals nothing changes.
-/

set_option autoImplicit false

namespace Monkey

/-- The parameter `old` becomes `new` in the literals that stand at the chosen places. -/
structure Renaming where
  old : String
  new : String
  chosen : Site → Bool

namespace Renaming

def name (r : Renaming) (inside : Bool) (name : String) : String :=
  if inside && name == r.old then r.new else name

def enters (r : Renaming) (inside : Bool) (site : Site) (params : List String) : Bool :=
  inside || (r.chosen site && params.contains r.old)

def nowhere (r : Renaming) : Renaming := ⟨r.old, r.new, fun _ => false⟩

theorem name_outside (r : Renaming) (name : String) : r.name false name = name := rfl

theorem name_old (r : Renaming) : r.name true r.old = r.new := by simp [Renaming.name]

theorem name_of_ne {r : Renaming} {name : String} (h : name ≠ r.old) (inside : Bool) :
    r.name inside name = name := by simp [Renaming.name, h]

theorem name_injective {r : Renaming} {inside : Bool} {a b : String}
    (ha : inside = true → a ≠ r.new) (hb : inside = true → b ≠ r.new)
    (h : r.name inside a = r.name inside b) : a = b := by
  cases inside with
  | false => exact h
  | true =>
    by_cases hold : a = r.old <;> by_cases hother : b = r.old
    · rw [hold, hother]
    · rw [hold, name_old, name_of_ne hother] at h
      exact absurd h.symm (hb rfl)
    · rw [hother, name_old, name_of_ne hold] at h
      exact absurd h (ha rfl)
    · rwa [name_of_ne hold, name_of_ne hother] at h

end Renaming

mutual

def Expr.rename (r : Renaming) (inside : Bool) (site : Site) : Expr → Expr
  | .ident name => .ident (r.name inside name)
  | .int value => .int value
  | .bool value => .bool value
  | .prefixOp o e => .prefixOp o (e.rename r inside (site.child 0))
  | .infixOp o a b =>
    .infixOp o (a.rename r inside (site.child 0)) (b.rename r inside (site.child 1))
  | .cond c a none =>
    .cond (c.rename r inside (site.child 0)) (Stmt.renameAll r inside (site.child 1) a) none
  | .cond c a (some b) =>
    .cond (c.rename r inside (site.child 0)) (Stmt.renameAll r inside (site.child 1) a)
      (some (Stmt.renameAll r inside (site.child 2) b))
  | .fn ps body =>
    .fn (ps.map (r.name (r.enters inside site ps)))
      (Stmt.renameAll r (r.enters inside site ps) (site.child 0) body)
  | .call f es =>
    .call (f.rename r inside (site.child 0)) (Expr.renameAll r inside (site.child 1) es)

def Expr.renameAll (r : Renaming) (inside : Bool) (site : Site) : List Expr → List Expr
  | [] => []
  | e :: es => e.rename r inside (site.child 0) :: Expr.renameAll r inside (site.child 1) es

def Stmt.rename (r : Renaming) (inside : Bool) (site : Site) : Stmt → Stmt
  | .bind name e => .bind (r.name inside name) (e.rename r inside (site.child 0))
  | .ret none => .ret none
  | .ret (some e) => .ret (some (e.rename r inside (site.child 0)))
  | .expr e => .expr (e.rename r inside (site.child 0))
  | .block body => .block (Stmt.renameAll r inside (site.child 0) body)

def Stmt.renameAll (r : Renaming) (inside : Bool) (site : Site) : List Stmt → List Stmt
  | [] => []
  | s :: ss => s.rename r inside (site.child 0) :: Stmt.renameAll r inside (site.child 1) ss

end

def Program.rename (r : Renaming) (number : Nat) (p : Program) : Program :=
  Stmt.renameAll r false ⟨number, []⟩ p

mutual

theorem Expr.rename_nowhere (r : Renaming) : (e : Expr) → (site : Site) →
    e.rename r.nowhere false site = e
  | .ident _, _ => rfl
  | .int _, _ => rfl
  | .bool _, _ => rfl
  | .prefixOp o e, _ => by rw [Expr.rename, Expr.rename_nowhere r e]
  | .infixOp o a b, _ => by
    rw [Expr.rename, Expr.rename_nowhere r a, Expr.rename_nowhere r b]
  | .cond c a none, _ => by
    rw [Expr.rename, Expr.rename_nowhere r c, Stmt.renameAll_nowhere r a]
  | .cond c a (some b), _ => by
    rw [Expr.rename, Expr.rename_nowhere r c, Stmt.renameAll_nowhere r a,
      Stmt.renameAll_nowhere r b]
  | .fn ps body, site => by
    have houtside : r.nowhere.enters false site ps = false := rfl
    have hps : ps.map (r.nowhere.name false) = ps := List.map_id ps
    rw [Expr.rename, houtside, hps, Stmt.renameAll_nowhere r body]
  | .call f es, _ => by
    rw [Expr.rename, Expr.rename_nowhere r f, Expr.renameAll_nowhere r es]

theorem Expr.renameAll_nowhere (r : Renaming) : (es : List Expr) → (site : Site) →
    Expr.renameAll r.nowhere false site es = es
  | [], _ => rfl
  | e :: es, _ => by
    rw [Expr.renameAll, Expr.rename_nowhere r e, Expr.renameAll_nowhere r es]

theorem Stmt.rename_nowhere (r : Renaming) : (s : Stmt) → (site : Site) →
    s.rename r.nowhere false site = s
  | .bind name e, _ => by
    rw [Stmt.rename, Expr.rename_nowhere r e]
    rfl
  | .ret none, _ => rfl
  | .ret (some e), _ => by rw [Stmt.rename, Expr.rename_nowhere r e]
  | .expr e, _ => by rw [Stmt.rename, Expr.rename_nowhere r e]
  | .block body, _ => by rw [Stmt.rename, Stmt.renameAll_nowhere r body]

theorem Stmt.renameAll_nowhere (r : Renaming) : (ss : List Stmt) → (site : Site) →
    Stmt.renameAll r.nowhere false site ss = ss
  | [], _ => rfl
  | s :: ss, _ => by
    rw [Stmt.renameAll, Stmt.rename_nowhere r s, Stmt.renameAll_nowhere r ss]

end

end Monkey
