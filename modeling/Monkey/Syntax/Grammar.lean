import Monkey.Syntax

/-!
# The surface grammar

`Derives phrase tokens next` says that the tokens, with `next` behind them, are
the phrase. The token behind decides where a phrase ends: an operation, the
alternative of a conditional and the semicolon of a statement belong to it
whenever they can.

Operators associate to the left. An expression of level `n` is made of operators
that bind more tightly than `n`, and ends in front of a token that does not; an
expression that may still be extended is a chain.
-/

set_option autoImplicit false

namespace Monkey

def Token.level : Token → Nat
  | .op o => o.level
  | .lparen => 6
  | _ => 0

inductive Phrase where
  | atom (e : Expr)
  | chain (level : Nat) (e : Expr)
  | expr (level : Nat) (e : Expr)
  | arguments (es : List Expr)
  | block (statements : Block)
  | stmt (s : Stmt)
  | stmts (ss : List Stmt)

def paramTokens : List String → List Token
  | [] => []
  | [name] => [.ident name]
  | name :: other :: rest => .ident name :: .comma :: paramTokens (other :: rest)

/-- The statement ends here: with its semicolon, or in front of a token that is none. -/
inductive Terminated : List Token → Token → Prop where
  | semicolon (next : Token) : Terminated [.semicolon] next
  | bare (next : Token) (h : next ≠ .semicolon) : Terminated [] next

inductive Derives : Phrase → List Token → Token → Prop where
  | ident (name : String) (next : Token) : Derives (.atom (.ident name)) [.ident name] next
  | int (digits : String) (value : Int64) (next : Token) (h : integerValue? digits = some value) :
      Derives (.atom (.int value)) [.int digits] next
  | bool (value : Bool) (next : Token) :
      Derives (.atom (.bool value)) [.keyword (.bool value)] next
  | prefixOp (o : Operator) (e : Expr) (ts : List Token) (next : Token)
      (ho : o = .not ∨ o = .minus) (he : Derives (.expr 5 e) ts next) :
      Derives (.atom (.prefixOp o e)) (.op o :: ts) next
  | group (e : Expr) (ts : List Token) (next : Token) (he : Derives (.expr 0 e) ts .rparen) :
      Derives (.atom e) (.lparen :: ts ++ [.rparen]) next
  | cond (c : Expr) (a : Block) (cs as : List Token) (next : Token)
      (hc : Derives (.expr 0 c) cs .rparen) (ha : Derives (.block a) as next)
      (hnext : next ≠ .keyword .otherwise) :
      Derives (.atom (.cond c a none))
        (.keyword .cond :: .lparen :: cs ++ .rparen :: .lbrace :: as) next
  | condElse (c : Expr) (a b : Block) (cs as bs : List Token) (next : Token)
      (hc : Derives (.expr 0 c) cs .rparen) (ha : Derives (.block a) as (.keyword .otherwise))
      (hb : Derives (.block b) bs next) :
      Derives (.atom (.cond c a (some b)))
        (.keyword .cond :: .lparen :: cs ++ .rparen :: .lbrace :: as ++
          .keyword .otherwise :: .lbrace :: bs) next
  | fn (ps : List String) (body : Block) (ts : List Token) (next : Token)
      (hbody : Derives (.block body) ts next) :
      Derives (.atom (.fn ps body))
        (.keyword .fn :: .lparen :: paramTokens ps ++ .rparen :: .lbrace :: ts) next
  | start (level : Nat) (e : Expr) (ts : List Token) (next : Token)
      (he : Derives (.atom e) ts next) : Derives (.chain level e) ts next
  | infixOp (level : Nat) (o : Operator) (a b : Expr) (as bs : List Token) (next : Token)
      (ho : level < o.level) (ha : Derives (.chain level a) as (.op o))
      (hb : Derives (.expr o.level b) bs next) :
      Derives (.chain level (.infixOp o a b)) (as ++ .op o :: bs) next
  | call (level : Nat) (f : Expr) (es : List Expr) (fs ts : List Token) (next : Token)
      (hf : Derives (.chain level f) fs .lparen) (hes : Derives (.arguments es) ts .rparen) :
      Derives (.chain level (.call f es)) (fs ++ .lparen :: ts ++ [.rparen]) next
  | whole (level : Nat) (e : Expr) (ts : List Token) (next : Token)
      (he : Derives (.chain level e) ts next) (hnext : next.level ≤ level) :
      Derives (.expr level e) ts next
  | noArgument (next : Token) : Derives (.arguments []) [] next
  | lastArgument (e : Expr) (ts : List Token) (next : Token)
      (he : Derives (.expr 0 e) ts next) : Derives (.arguments [e]) ts next
  | argument (e f : Expr) (es : List Expr) (ts us : List Token) (next : Token)
      (he : Derives (.expr 0 e) ts .comma) (hes : Derives (.arguments (f :: es)) us next) :
      Derives (.arguments (e :: f :: es)) (ts ++ .comma :: us) next
  | closed (ss : List Stmt) (ts : List Token) (next : Token)
      (hss : Derives (.stmts ss) ts .rbrace) : Derives (.block ss) (ts ++ [.rbrace]) next
  | unclosed (ss : List Stmt) (ts : List Token) (hss : Derives (.stmts ss) ts .eof) :
      Derives (.block ss) ts .eof
  | bind (name : String) (e : Expr) (ts us : List Token) (next : Token)
      (he : Derives (.expr 0 e) ts (us.headD next)) (hend : Terminated us next) :
      Derives (.stmt (.bind name e))
        (.keyword .bind :: .ident name :: .assign :: ts ++ us) next
  | ret (e : Expr) (ts us : List Token) (next : Token)
      (he : Derives (.expr 0 e) ts (us.headD next)) (hend : Terminated us next) :
      Derives (.stmt (.ret (some e))) (.keyword .ret :: ts ++ us) next
  | retSemicolon (next : Token) :
      Derives (.stmt (.ret none)) [.keyword .ret, .semicolon] next
  | retOpen (next : Token) (h : next = .rbrace ∨ next = .eof) :
      Derives (.stmt (.ret none)) [.keyword .ret] next
  | expr (e : Expr) (ts us : List Token) (next : Token)
      (he : Derives (.expr 0 e) ts (us.headD next)) (hend : Terminated us next) :
      Derives (.stmt (.expr e)) (ts ++ us) next
  | nil (next : Token) : Derives (.stmts []) [] next
  | cons (s : Stmt) (ss : List Stmt) (ts us : List Token) (next : Token)
      (hs : Derives (.stmt s) ts (us.headD next)) (hss : Derives (.stmts ss) us next) :
      Derives (.stmts (s :: ss)) (ts ++ us) next

def Program.DerivedFrom (program : Program) (tokens : List Token) : Prop :=
  Derives (.stmts program) tokens .eof

end Monkey
