import Monkey.Token

/-!
# Syntax trees

A program is a list of statements. Expressions contain statements through the
blocks of conditionals and function literals, and statements contain
expressions. A block that stands as a statement of its own has no notation: it
occurs only in trees that were built by hand.

Two trees are compared node by node; `Expr.same_iff` and `Stmt.same_iff` say
that the comparison decides equality.
-/

set_option autoImplicit false

namespace Monkey

mutual

inductive Expr where
  | ident (name : String)
  | int (value : Int64)
  | bool (value : Bool)
  | prefixOp (operator : Operator) (operand : Expr)
  | infixOp (operator : Operator) (left right : Expr)
  | cond (condition : Expr) (consequence : List Stmt) (alternative : Option (List Stmt))
  | fn (params : List String) (body : List Stmt)
  | call (callee : Expr) (arguments : List Expr)

inductive Stmt where
  | bind (name : String) (value : Expr)
  | ret (value : Option Expr)
  | expr (value : Expr)
  | block (body : List Stmt)

end

abbrev Block := List Stmt

abbrev Program := List Stmt

def maxInteger : Nat := 9223372036854775807

def integerValue? (digits : String) : Option Int64 :=
  if Nat.ofDigitChars 10 digits.toList 0 ≤ maxInteger then
    some (Int64.ofNat (Nat.ofDigitChars 10 digits.toList 0))
  else none

mutual

def Expr.same : Expr → Expr → Bool
  | .ident a, .ident b => a == b
  | .int a, .int b => a == b
  | .bool a, .bool b => a == b
  | .prefixOp o a, .prefixOp p b => o == p && a.same b
  | .infixOp o a b, .infixOp p c d => o == p && a.same c && b.same d
  | .cond c a none, .cond d b none => c.same d && Stmt.sameAll a b
  | .cond c a (some x), .cond d b (some y) =>
    c.same d && Stmt.sameAll a b && Stmt.sameAll x y
  | .fn ps a, .fn qs b => ps == qs && Stmt.sameAll a b
  | .call f as, .call g bs => f.same g && Expr.sameAll as bs
  | _, _ => false

def Expr.sameAll : List Expr → List Expr → Bool
  | [], [] => true
  | a :: as, b :: bs => a.same b && Expr.sameAll as bs
  | _, _ => false

def Stmt.same : Stmt → Stmt → Bool
  | .bind n a, .bind m b => n == m && a.same b
  | .ret none, .ret none => true
  | .ret (some a), .ret (some b) => a.same b
  | .expr a, .expr b => a.same b
  | .block a, .block b => Stmt.sameAll a b
  | _, _ => false

def Stmt.sameAll : List Stmt → List Stmt → Bool
  | [], [] => true
  | a :: as, b :: bs => a.same b && Stmt.sameAll as bs
  | _, _ => false

end

mutual

theorem Expr.same_iff : (a b : Expr) → (a.same b = true ↔ a = b)
  | .ident a, b => by cases b <;> simp [Expr.same]
  | .int a, b => by cases b <;> simp [Expr.same]
  | .bool a, b => by cases b <;> simp [Expr.same]
  | .prefixOp o a, b => by
    cases b <;> simp [Expr.same, Expr.same_iff a]
  | .infixOp o a b, c => by
    cases c <;> simp [Expr.same, Expr.same_iff a, Expr.same_iff b, and_assoc]
  | .cond c a none, d => by
    rcases d with _ | _ | _ | _ | _ | ⟨_, _, _ | _⟩ | _ | _ <;>
      simp [Expr.same, Expr.same_iff c, Stmt.sameAll_iff a]
  | .cond c a (some x), d => by
    rcases d with _ | _ | _ | _ | _ | ⟨_, _, _ | _⟩ | _ | _ <;>
      simp [Expr.same, Expr.same_iff c, Stmt.sameAll_iff a, Stmt.sameAll_iff x, and_assoc]
  | .fn ps a, b => by
    cases b <;> simp [Expr.same, Stmt.sameAll_iff a]
  | .call f as, b => by
    cases b <;> simp [Expr.same, Expr.same_iff f, Expr.sameAll_iff as]

theorem Expr.sameAll_iff : (as bs : List Expr) → (Expr.sameAll as bs = true ↔ as = bs)
  | [], bs => by cases bs <;> simp [Expr.sameAll]
  | a :: as, bs => by
    cases bs <;> simp [Expr.sameAll, Expr.same_iff a, Expr.sameAll_iff as]

theorem Stmt.same_iff : (a b : Stmt) → (a.same b = true ↔ a = b)
  | .bind n a, b => by cases b <;> simp [Stmt.same, Expr.same_iff a]
  | .ret none, b => by rcases b with _ | ⟨_ | _⟩ | _ | _ <;> simp [Stmt.same]
  | .ret (some a), b => by
    rcases b with _ | ⟨_ | _⟩ | _ | _ <;> simp [Stmt.same, Expr.same_iff a]
  | .expr a, b => by cases b <;> simp [Stmt.same, Expr.same_iff a]
  | .block a, b => by cases b <;> simp [Stmt.same, Stmt.sameAll_iff a]

theorem Stmt.sameAll_iff : (as bs : List Stmt) → (Stmt.sameAll as bs = true ↔ as = bs)
  | [], bs => by cases bs <;> simp [Stmt.sameAll]
  | a :: as, bs => by
    cases bs <;> simp [Stmt.sameAll, Stmt.same_iff a, Stmt.sameAll_iff as]

end

instance : DecidableEq Expr := fun a b => decidable_of_iff (a.same b = true) (a.same_iff b)

instance : DecidableEq Stmt := fun a b => decidable_of_iff (a.same b = true) (a.same_iff b)

end Monkey
