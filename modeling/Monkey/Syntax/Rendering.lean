import Monkey.Syntax

/-!
# The canonical text of a tree

Every operation stands in parentheses, statements are separated by a semicolon
and a blank, and a block shows its statements between braces. The text is source
text again whenever the tree has a notation at all.

`lead` is the text of the one token that a node is known by.
-/

set_option autoImplicit false

namespace Monkey

def separated (separator : String) : List String → String
  | [] => ""
  | [a] => a
  | a :: b :: rest => a ++ separator ++ separated separator (b :: rest)

def braces (statements : Block) (inner : String) : String :=
  if statements.isEmpty then "\x7b \x7d" else "\x7b " ++ inner ++ " \x7d"

mutual

def Expr.text : Expr → String
  | .ident name => name
  | .int value => toString value.toInt
  | .bool value => (Keyword.bool value).text
  | .prefixOp o e => "(" ++ o.text ++ e.text ++ ")"
  | .infixOp o a b => "(" ++ a.text ++ " " ++ o.text ++ " " ++ b.text ++ ")"
  | .cond c a none => "if (" ++ c.text ++ ") " ++ braces a (Stmt.listText a)
  | .cond c a (some b) => "if (" ++ c.text ++ ") " ++ braces a (Stmt.listText a) ++
      " else " ++ braces b (Stmt.listText b)
  | .fn ps body => "fn(" ++ separated ", " ps ++ ") " ++ braces body (Stmt.listText body)
  | .call f es => f.text ++ "(" ++ Expr.listText es ++ ")"

def Expr.listText : List Expr → String
  | [] => ""
  | [e] => e.text
  | e :: f :: es => e.text ++ ", " ++ Expr.listText (f :: es)

def Stmt.text : Stmt → String
  | .bind name value => "let " ++ name ++ " = " ++ value.text
  | .ret none => "return"
  | .ret (some value) => "return " ++ value.text
  | .expr value => value.text
  | .block body => braces body (Stmt.listText body)

def Stmt.listText : List Stmt → String
  | [] => ""
  | [s] => s.text
  | s :: t :: ss => s.text ++ "; " ++ Stmt.listText (t :: ss)

end

def Program.text (program : Program) : String := Stmt.listText program

def Expr.lead : Expr → String
  | .ident name => name
  | .int value => toString value.toInt
  | .bool value => (Keyword.bool value).text
  | .prefixOp o _ => o.text
  | .infixOp o _ _ => o.text
  | .cond _ _ _ => "if"
  | .fn _ _ => "fn"
  | .call _ _ => "("

def Stmt.lead : Stmt → String
  | .bind _ _ => "let"
  | .ret _ => "return"
  | .expr value => value.lead
  | .block _ => "\x7b"

def Program.lead : Program → String
  | [] => ""
  | s :: _ => s.lead

end Monkey
