import Monkey.Syntax

/-!
# Flattening blocks

A block that stands as a statement gives way to its own statements, at all
depths, so that none is left. Blocks of conditionals and of function literals
stay, since they are no statements.
-/

set_option autoImplicit false

namespace Monkey

mutual

def Expr.flatten : Expr → Expr
  | .ident name => .ident name
  | .int value => .int value
  | .bool value => .bool value
  | .prefixOp o e => .prefixOp o e.flatten
  | .infixOp o a b => .infixOp o a.flatten b.flatten
  | .cond c a none => .cond c.flatten (Stmt.flattenAll a) none
  | .cond c a (some b) => .cond c.flatten (Stmt.flattenAll a) (some (Stmt.flattenAll b))
  | .fn ps body => .fn ps (Stmt.flattenAll body)
  | .call f es => .call f.flatten (Expr.flattenAll es)

def Expr.flattenAll : List Expr → List Expr
  | [] => []
  | e :: es => e.flatten :: Expr.flattenAll es

def Stmt.flatten : Stmt → List Stmt
  | .bind name e => [.bind name e.flatten]
  | .ret none => [.ret none]
  | .ret (some e) => [.ret (some e.flatten)]
  | .expr e => [.expr e.flatten]
  | .block body => Stmt.flattenAll body

def Stmt.flattenAll : List Stmt → List Stmt
  | [] => []
  | s :: ss => s.flatten ++ Stmt.flattenAll ss

end

mutual

/-- All blocks that stand as statements in the expression are as required. -/
def Expr.Blocks (required : Block → Prop) : Expr → Prop
  | .ident _ => True
  | .int _ => True
  | .bool _ => True
  | .prefixOp _ e => e.Blocks required
  | .infixOp _ a b => a.Blocks required ∧ b.Blocks required
  | .cond c a none => c.Blocks required ∧ Stmt.AllBlocks required a
  | .cond c a (some b) =>
    c.Blocks required ∧ Stmt.AllBlocks required a ∧ Stmt.AllBlocks required b
  | .fn _ body => Stmt.AllBlocks required body
  | .call f es => f.Blocks required ∧ Expr.AllBlocks required es

def Expr.AllBlocks (required : Block → Prop) : List Expr → Prop
  | [] => True
  | e :: es => e.Blocks required ∧ Expr.AllBlocks required es

def Stmt.Blocks (required : Block → Prop) : Stmt → Prop
  | .bind _ e => e.Blocks required
  | .ret none => True
  | .ret (some e) => e.Blocks required
  | .expr e => e.Blocks required
  | .block body => required body ∧ Stmt.AllBlocks required body

def Stmt.AllBlocks (required : Block → Prop) : List Stmt → Prop
  | [] => True
  | s :: ss => s.Blocks required ∧ Stmt.AllBlocks required ss

end

/-- What flattening needs, since a block without statements has no value, where the statement
before it may have one. -/
def filled : Block → Prop := fun body => body ≠ []

def noBlock : Block → Prop := fun _ => False

theorem Stmt.allBlocks_append {required : Block → Prop} {ss rest : List Stmt}
    (h : Stmt.AllBlocks required ss) (hrest : Stmt.AllBlocks required rest) :
    Stmt.AllBlocks required (ss ++ rest) := by
  induction ss with
  | nil => exact hrest
  | cons s ss ih => exact ⟨h.1, ih h.2⟩

mutual

theorem Expr.flatten_noBlock : (e : Expr) → e.flatten.Blocks noBlock
  | .ident _ => trivial
  | .int _ => trivial
  | .bool _ => trivial
  | .prefixOp _ e => e.flatten_noBlock
  | .infixOp _ a b => ⟨a.flatten_noBlock, b.flatten_noBlock⟩
  | .cond c a none => ⟨c.flatten_noBlock, Stmt.flattenAll_noBlock a⟩
  | .cond c a (some b) =>
    ⟨c.flatten_noBlock, Stmt.flattenAll_noBlock a, Stmt.flattenAll_noBlock b⟩
  | .fn _ body => Stmt.flattenAll_noBlock body
  | .call f es => ⟨f.flatten_noBlock, Expr.flattenAll_noBlock es⟩

theorem Expr.flattenAll_noBlock : (es : List Expr) → Expr.AllBlocks noBlock (Expr.flattenAll es)
  | [] => trivial
  | e :: es => ⟨e.flatten_noBlock, Expr.flattenAll_noBlock es⟩

theorem Stmt.flatten_noBlock : (s : Stmt) → Stmt.AllBlocks noBlock s.flatten
  | .bind _ e => ⟨e.flatten_noBlock, trivial⟩
  | .ret none => ⟨trivial, trivial⟩
  | .ret (some e) => ⟨e.flatten_noBlock, trivial⟩
  | .expr e => ⟨e.flatten_noBlock, trivial⟩
  | .block body => Stmt.flattenAll_noBlock body

theorem Stmt.flattenAll_noBlock : (ss : List Stmt) →
    Stmt.AllBlocks noBlock (Stmt.flattenAll ss)
  | [] => trivial
  | s :: ss => Stmt.allBlocks_append s.flatten_noBlock (Stmt.flattenAll_noBlock ss)

end

end Monkey
