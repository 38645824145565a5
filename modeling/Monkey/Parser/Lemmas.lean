import Monkey.Parser.Step
import Monkey.Syntax.Grammar

/-!
# Steps of the parser

How moves compose, and what a single step does once the token and the top of the
stack are known: an expression is extended if the token binds more tightly than
the stack, and fills the hole on top otherwise.
-/

set_option autoImplicit false

namespace Monkey

/-- How tightly the construct on top holds an expression. -/
def Stack.level : Stack → Nat
  | .hole hole :: _ => hole.level
  | _ => 0

def Stack.base : Stack → Bool
  | .hole _ :: _ => false
  | _ => true

namespace Control

theorem followedBy_quiet (m : Move) : m.followedBy (.quiet m.control) = m := by
  simp [Move.followedBy, Move.quiet]

theorem quiet_followedBy (c : Control) (m : Move) : (Move.quiet c).followedBy m = m := by
  simp [Move.followedBy, Move.quiet]

theorem run_single (c : Control) (t : Token) : c.run [t] = c.step t := by
  simp [run, followedBy_quiet]

theorem run_step {c d : Control} {t : Token} (h : c.step t = .quiet d) (ts : List Token) :
    c.run (t :: ts) = d.run ts := by
  rw [run, h, quiet_followedBy]
  rfl

theorem run_through (c : Control) (ts us : List Token) (next : Token) :
    c.run (ts ++ next :: us) =
      (c.run (ts ++ [next])).followedBy ((c.run (ts ++ [next])).control.run us) := by
  rw [show ts ++ next :: us = (ts ++ [next]) ++ us by simp, run_append]

theorem run_quiet {c d : Control} {ts : List Token} {next : Token}
    (h : c.run (ts ++ [next]) = .quiet d) (us : List Token) :
    c.run (ts ++ next :: us) = d.run us := by
  rw [run_through, h, quiet_followedBy]
  rfl

theorem extendExpr_none {t : Token} {k : Nat} {e : Expr} {stack : Stack}
    (h : t.level ≤ k) (hk : k ≤ 5) :
    extendExpr? t k e stack = none := by
  unfold extendExpr?
  split
  · rw [if_neg]; simpa [Token.level] using h
  · simp [Token.level] at h; omega
  · rfl

theorem settle_hole (t : Token) (hole : Hole) {stack : Stack} {e : Expr} {b : Bool}
    (h : t.level ≤ hole.level) (hk : hole.level ≤ 5) :
    settle t (.hole hole :: stack) (.expr e b) = fillHole t hole e b stack (settle t stack) := by
  simp [settle, extendExpr_none h hk]

theorem settle_op {o : Operator} {stack : Stack} {e : Expr} {b : Bool} (h : stack.level < o.level) :
    settle (.op o) stack (.expr e b) = .quiet ⟨.operand, .hole (.infixOp o e) :: stack⟩ := by
  match stack with
  | [] => simp only [Stack.level] at h; simp [settle, atTop, extendExpr?, h]
  | .block owner before :: rest =>
    simp only [Stack.level] at h; simp [settle, atBlock, extendExpr?, h]
  | .hole hole :: rest =>
    simp only [Stack.level] at h; simp [settle, extendExpr?, h]

theorem settle_lparen {stack : Stack} {e : Expr} {b : Bool} :
    settle .lparen stack (.expr e b) = .quiet ⟨.arguments e, stack⟩ := by
  match stack with
  | [] => simp [settle, atTop, extendExpr?]
  | .block owner before :: rest => simp [settle, atBlock, extendExpr?]
  | .hole hole :: rest => simp [settle, extendExpr?]

theorem settle_nothing {t : Token} {stack : Stack} (hs : Stack.base stack = true)
    (hb : t ≠ .rbrace) (he : t ≠ .eof) : settle t stack .nothing = startStmt t stack := by
  match stack, hs with
  | [], _ => simp [settle, atTop, atTop.between, he]
  | .block owner before :: rest, _ => simp [settle, atBlock, atBlock.between, hb, he]

theorem startStmt_startExpr {t : Token} {stack : Stack} {c : Control}
    (h : startExpr t stack = .ok c) :
    startStmt t stack = .quiet c := by
  unfold startStmt
  split
  · simp [startExpr] at h
  · simp [startExpr] at h
  · simp [h]

theorem startExpr_ne {t : Token} {stack : Stack} {c : Control} (h : startExpr t stack = .ok c) :
    t ≠ .semicolon ∧ t ≠ .rbrace ∧ t ≠ .eof ∧ t ≠ .rparen := by
  refine ⟨?_, ?_, ?_, ?_⟩ <;> rintro rfl <;> cases h

theorem level_le_five (o : Operator) : o.level ≤ 5 := by cases o <;> decide

end Control

end Monkey
