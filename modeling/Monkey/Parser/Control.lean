import Monkey.Token
import Monkey.Syntax

/-!
# The control of the parser

The parser is a stack machine that is fed one token at a time. Its mode says
what the next token is for, and its stack holds the constructs that are still
open, the innermost first: holes, which wait for an expression, and blocks,
which collect statements.
-/

set_option autoImplicit false

namespace Monkey

inductive ParseError where
  | unexpected (expected found : Token.Kind)
  | noExpression (found : Token.Kind)
  | integerTooLarge (digits : String)
  deriving DecidableEq, Repr

def ParseError.message : ParseError → String
  | unexpected expected found =>
    "expected next token to be " ++ expected.name ++ ", got " ++ found.name ++ " instead"
  | noExpression found => "no prefix parse function for " ++ found.name ++ " found"
  | integerTooLarge digits => "could not parse " ++ digits ++ " as integer"

/-- A construct that waits for an expression. -/
inductive Hole where
  | prefixOp (operator : Operator)
  | infixOp (operator : Operator) (left : Expr)
  | group
  | condition
  | argument (callee : Expr) (before : List Expr)
  | bind (name : String)
  | ret

/-- What an open block is a part of. -/
inductive Owner where
  | consequence (condition : Expr)
  | alternative (condition : Expr) (consequence : Block)
  | body (params : List String)

inductive Frame where
  | hole (hole : Hole)
  | block (owner : Owner) (statements : Block)

abbrev Stack := List Frame

/-- What the next token is for. `operator left braced` stands after a complete
expression, and `braced` tells that its last token was a closing brace. -/
inductive Mode where
  | statement
  | skip
  | operand
  | operator (left : Expr) (braced : Bool)
  | bindName
  | bindAssign (name : String)
  | returned
  | condOpen
  | consequenceOpen (condition : Expr)
  | consequenceEnd (condition : Expr) (consequence : Block)
  | alternativeOpen (condition : Expr) (consequence : Block)
  | fnOpen
  | firstParam
  | param (before : List String)
  | paramEnd (params : List String)
  | bodyOpen (params : List String)
  | arguments (callee : Expr)

structure Control where
  mode : Mode
  stack : Stack

namespace Control

def idle : Control := ⟨.statement, []⟩

end Control

/-- The control after some tokens, with the statements completed outside of all
blocks and the errors found, both in order. -/
structure Move where
  control : Control
  statements : List Stmt
  errors : List ParseError

namespace Move

def quiet (control : Control) : Move := ⟨control, [], []⟩

def withError (error : ParseError) (move : Move) : Move :=
  ⟨move.control, move.statements, error :: move.errors⟩

def withStatement (statement : Stmt) (move : Move) : Move :=
  ⟨move.control, statement :: move.statements, move.errors⟩

def followedBy (first later : Move) : Move :=
  ⟨later.control, first.statements ++ later.statements, first.errors ++ later.errors⟩

end Move

/-- How tightly a hole holds the expression it waits for: an operator that binds
less tightly ends that expression. -/
def Hole.level : Hole → Nat
  | .prefixOp _ => 5
  | .infixOp o _ => o.level
  | _ => 0

def Owner.expr : Owner → Block → Expr
  | .consequence c, a => .cond c a none
  | .alternative c a, b => .cond c a (some b)
  | .body ps, b => .fn ps b

def Owner.close : Owner → Block → Mode
  | .consequence c, a => .consequenceEnd c a
  | owner, b => .operator (owner.expr b) true

end Monkey
