import Monkey.Syntax

/-!
# Arithmetic trees

The expressions that integer literals make up with negations, sums, differences
and products, and with quotients where these are allowed. Without quotients, a
tree has an exact value among all integers.
-/

set_option autoImplicit false

namespace Monkey

inductive Arithmetic (quotients : Prop) where
  | literal (n : Int64)
  | negative (a : Arithmetic quotients)
  | sum (a b : Arithmetic quotients)
  | difference (a b : Arithmetic quotients)
  | product (a b : Arithmetic quotients)
  | quotient (allowed : quotients) (a b : Arithmetic quotients)

namespace Arithmetic

variable {quotients : Prop}

def expr : Arithmetic quotients → Expr
  | literal n => .int n
  | negative a => .prefixOp .minus a.expr
  | sum a b => .infixOp .plus a.expr b.expr
  | difference a b => .infixOp .minus a.expr b.expr
  | product a b => .infixOp .times a.expr b.expr
  | quotient _ a b => .infixOp .divide a.expr b.expr

def exact : Arithmetic False → Int
  | literal n => n.toInt
  | negative a => -a.exact
  | sum a b => a.exact + b.exact
  | difference a b => a.exact - b.exact
  | product a b => a.exact * b.exact
  | quotient allowed _ _ => allowed.elim

def divisors : Arithmetic quotients → List Expr
  | literal _ => []
  | negative a => a.divisors
  | sum a b => a.divisors ++ b.divisors
  | difference a b => a.divisors ++ b.divisors
  | product a b => a.divisors ++ b.divisors
  | quotient _ a b => a.divisors ++ (b.divisors ++ [b.expr])

end Arithmetic

end Monkey
