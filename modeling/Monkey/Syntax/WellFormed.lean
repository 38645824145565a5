import Monkey.Syntax

/-!
# Well-formed trees

A tree built by hand can hold names that are no identifiers, operators in places
where they have no notation, negative literals, and blocks as statements. The
well-formed trees are those without any of it.
-/

set_option autoImplicit false

namespace Monkey

def isNameChar (c : Char) : Bool :=
  ('a' ≤ c && c ≤ 'z') || ('A' ≤ c && c ≤ 'Z') || c == '_'

/-- A name that can be written: letters and underscores, at least one of them,
and not a keyword. -/
def isName (name : String) : Bool :=
  !name.isEmpty && name.toList.all isNameChar && (Keyword.ofText? name).isNone

mutual

def Expr.wellFormed : Expr → Bool
  | .ident name => isName name
  | .int value => decide (0 ≤ value)
  | .bool _ => true
  | .prefixOp o e => (o == .not || o == .minus) && e.wellFormed
  | .infixOp o a b => o != .not && a.wellFormed && b.wellFormed
  | .cond c a none => c.wellFormed && Stmt.allWellFormed a
  | .cond c a (some b) => c.wellFormed && Stmt.allWellFormed a && Stmt.allWellFormed b
  | .fn ps body => ps.all isName && Stmt.allWellFormed body
  | .call f es => f.wellFormed && Expr.allWellFormed es

def Expr.allWellFormed : List Expr → Bool
  | [] => true
  | e :: es => e.wellFormed && Expr.allWellFormed es

def Stmt.wellFormed : Stmt → Bool
  | .bind name e => isName name && e.wellFormed
  | .ret none => true
  | .ret (some e) => e.wellFormed
  | .expr e => e.wellFormed
  | .block _ => false

def Stmt.allWellFormed : List Stmt → Bool
  | [] => true
  | s :: ss => s.wellFormed && Stmt.allWellFormed ss

end

def Program.WellFormed (program : Program) : Prop := Stmt.allWellFormed program = true

instance (program : Program) : Decidable program.WellFormed :=
  inferInstanceAs (Decidable (_ = true))

end Monkey
