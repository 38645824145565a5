import Monkey.Parser.Control

/-!
# One token at a time

A token may close any number of open constructs, so a step walks down the stack;
it never looks at a token that has not been fed. A statement that turns out to be
broken is given up with one error. Recovery then skips to the next semicolon or
closing brace, and the innermost open block goes on from there.
-/

set_option autoImplicit false

namespace Monkey

def Control.startExpr (t : Token) (stack : Stack) : Except ParseError Control :=
  match t with
  | .ident name => .ok ⟨.operator (.ident name) false, stack⟩
  | .int digits =>
    match integerValue? digits with
    | some value => .ok ⟨.operator (.int value) false, stack⟩
    | none => .error (.integerTooLarge digits)
  | .keyword (.bool value) => .ok ⟨.operator (.bool value) false, stack⟩
  | .op .not => .ok ⟨.operand, .hole (.prefixOp .not) :: stack⟩
  | .op .minus => .ok ⟨.operand, .hole (.prefixOp .minus) :: stack⟩
  | .lparen => .ok ⟨.operand, .hole .group :: stack⟩
  | .keyword .cond => .ok ⟨.condOpen, stack⟩
  | .keyword .fn => .ok ⟨.fnOpen, stack⟩
  | t => .error (.noExpression t.kind)

/-- Goes on inside the larger expression that `t` makes of `e`, if it does so
above `level`. -/
def Control.extendExpr? (t : Token) (level : Nat) (e : Expr) (stack : Stack) : Option Control :=
  match t with
  | .op o => if level < o.level then some ⟨.operand, .hole (.infixOp o e) :: stack⟩ else none
  | .lparen => some ⟨.arguments e, stack⟩
  | _ => none

/-- Goes on inside a statement whose first token is `t`. If `t` starts none, the
statement is given up, and skipped unless `t` was the end of it. -/
def Control.startStmt (t : Token) (stack : Stack) : Move :=
  match t with
  | .keyword .bind => .quiet ⟨.bindName, stack⟩
  | .keyword .ret => .quiet ⟨.returned, stack⟩
  | t =>
    match startExpr t stack with
    | .ok control => .quiet control
    | .error error =>
      if t = .semicolon ∨ t = .rbrace then ⟨⟨.statement, stack⟩, [], [error]⟩
      else ⟨⟨.skip, stack⟩, [], [error]⟩

/-- What has just come to an end in front of a token: an expression, a complete
statement, nothing, a statement that broke in front of the token (`braced` tells
that it broke behind a closing brace), or one that broke on the token. -/
inductive Ended where
  | expr (e : Expr) (braced : Bool)
  | stmt (s : Stmt)
  | nothing
  | broken (braced : Bool)
  | refused

namespace Control

def atTop (t : Token) : Ended → Move
  | .expr e _ =>
    match extendExpr? t 0 e [] with
    | some control => .quiet control
    | none => afterStmt (.expr e)
  | .stmt s => afterStmt s
  | .nothing => between
  | .broken true => between
  | .broken false => skipped
  | .refused => if t = .rbrace then .quiet idle else skipped
where
  between : Move := if t = .eof then .quiet idle else startStmt t []
  afterStmt (s : Stmt) : Move :=
    if t = .semicolon then ⟨idle, [s], []⟩ else between.withStatement s
  skipped : Move :=
    if t = .semicolon then .quiet idle
    else if t = .rbrace ∨ t = .eof then between
    else .quiet ⟨.skip, []⟩

/-- Inside a block, where `resume` goes on outside of it. -/
def atBlock (t : Token) (owner : Owner) (statements : Block) (rest : Stack)
    (resume : Ended → Move) : Ended → Move
  | .expr e _ =>
    match extendExpr? t 0 e (.block owner statements :: rest) with
    | some control => .quiet control
    | none => afterStmt (.expr e)
  | .stmt s => afterStmt s
  | .nothing => between statements
  | .broken true => closed
  | .broken false => skipped
  | .refused => skipped
where
  /-- The block ends in front of the token. -/
  closed : Move :=
    match owner, t with
    | .consequence c, .keyword .otherwise => .quiet ⟨.alternativeOpen c statements, rest⟩
    | _, _ => resume (.expr (owner.expr statements) true)
  between (statements : Block) : Move :=
    if t = .rbrace then .quiet ⟨owner.close statements, rest⟩
    else if t = .eof then resume (.expr (owner.expr statements) true)
    else startStmt t (.block owner statements :: rest)
  afterStmt (s : Stmt) : Move :=
    if t = .semicolon then .quiet ⟨.statement, .block owner (statements ++ [s]) :: rest⟩
    else between (statements ++ [s])
  skipped : Move :=
    if t = .semicolon then .quiet ⟨.statement, .block owner statements :: rest⟩
    else if t = .rbrace ∨ t = .eof then between statements
    else .quiet ⟨.skip, .block owner statements :: rest⟩

def fillHole (t : Token) (hole : Hole) (e : Expr) (braced : Bool) (rest : Stack)
    (resume : Ended → Move) : Move :=
  match hole with
  | .prefixOp o => resume (.expr (.prefixOp o e) braced)
  | .infixOp o left => resume (.expr (.infixOp o left e) braced)
  | .group => if t = .rparen then .quiet ⟨.operator e false, rest⟩ else unclosed
  | .condition => if t = .rparen then .quiet ⟨.consequenceOpen e, rest⟩ else unclosed
  | .argument f before =>
    if t = .comma then .quiet ⟨.operand, .hole (.argument f (before ++ [e])) :: rest⟩
    else if t = .rparen then .quiet ⟨.operator (.call f (before ++ [e])) false, rest⟩
    else unclosed
  | .bind name => resume (.stmt (.bind name e))
  | .ret => resume (.stmt (.ret (some e)))
where
  unclosed : Move := (resume (.broken braced)).withError (.unexpected .rparen t.kind)

/-- What becomes of the stack when the token `t` follows something that has come
to an end. A broken statement takes its holes with it. -/
def settle (t : Token) : Stack → Ended → Move
  | [], ended => atTop t ended
  | .block owner statements :: rest, ended =>
    atBlock t owner statements rest (settle t rest) ended
  | .hole hole :: rest, .expr e braced =>
    match extendExpr? t hole.level e (.hole hole :: rest) with
    | some control => .quiet control
    | none => fillHole t hole e braced rest (settle t rest)
  | .hole _ :: rest, ended => settle t rest ended

def operand (t : Token) (stack : Stack) : Move :=
  match startExpr t stack with
  | .ok control => .quiet control
  | .error error => (settle t stack .refused).withError error

def missing (expected : Token.Kind) (t : Token) (stack : Stack) : Move :=
  (settle t stack (.broken false)).withError (.unexpected expected t.kind)

def expect (expected t : Token) (stack : Stack) (next : Control) : Move :=
  if t = expected then .quiet next else missing expected.kind t stack

def expectName (t : Token) (stack : Stack) (next : String → Control) : Move :=
  match t with
  | .ident name => .quiet (next name)
  | t => missing .ident t stack

def step (control : Control) (t : Token) : Move :=
  match control with
  | ⟨.statement, stack⟩ => settle t stack .nothing
  | ⟨.skip, stack⟩ => settle t stack (.broken false)
  | ⟨.operand, stack⟩ => operand t stack
  | ⟨.operator e braced, stack⟩ => settle t stack (.expr e braced)
  | ⟨.bindName, stack⟩ => expectName t stack fun name => ⟨.bindAssign name, stack⟩
  | ⟨.bindAssign name, stack⟩ => expect .assign t stack ⟨.operand, .hole (.bind name) :: stack⟩
  | ⟨.returned, stack⟩ =>
    if t = .semicolon ∨ t = .rbrace ∨ t = .eof then settle t stack (.stmt (.ret none))
    else operand t (.hole .ret :: stack)
  | ⟨.condOpen, stack⟩ => expect .lparen t stack ⟨.operand, .hole .condition :: stack⟩
  | ⟨.consequenceOpen c, stack⟩ =>
    expect .lbrace t stack ⟨.statement, .block (.consequence c) [] :: stack⟩
  | ⟨.consequenceEnd c a, stack⟩ =>
    if t = .keyword .otherwise then .quiet ⟨.alternativeOpen c a, stack⟩
    else settle t stack (.expr (.cond c a none) true)
  | ⟨.alternativeOpen c a, stack⟩ =>
    expect .lbrace t stack ⟨.statement, .block (.alternative c a) [] :: stack⟩
  | ⟨.fnOpen, stack⟩ => expect .lparen t stack ⟨.firstParam, stack⟩
  | ⟨.firstParam, stack⟩ =>
    if t = .rparen then .quiet ⟨.bodyOpen [], stack⟩
    else expectName t stack fun name => ⟨.paramEnd [name], stack⟩
  | ⟨.param before, stack⟩ =>
    expectName t stack fun name => ⟨.paramEnd (before ++ [name]), stack⟩
  | ⟨.paramEnd ps, stack⟩ =>
    if t = .comma then .quiet ⟨.param ps, stack⟩ else expect .rparen t stack ⟨.bodyOpen ps, stack⟩
  | ⟨.bodyOpen ps, stack⟩ => expect .lbrace t stack ⟨.statement, .block (.body ps) [] :: stack⟩
  | ⟨.arguments f, stack⟩ =>
    if t = .rparen then .quiet ⟨.operator (.call f []) false, stack⟩
    else operand t (.hole (.argument f []) :: stack)

def run : Control → List Token → Move
  | control, [] => .quiet control
  | control, t :: ts => (control.step t).followedBy ((control.step t).control.run ts)

theorem run_append (control : Control) (ts us : List Token) :
    control.run (ts ++ us) = (control.run ts).followedBy ((control.run ts).control.run us) := by
  induction ts generalizing control with
  | nil => rfl
  | cons t ts ih => simp [run, ih, Move.followedBy]

theorem atTop_eof (ended : Ended) : (atTop .eof ended).control = idle := by
  rcases ended with ⟨e, braced⟩ | s | _ | ⟨_ | _⟩ | _ <;> rfl

theorem settle_eof (stack : Stack) (ended : Ended) : (settle .eof stack ended).control = idle := by
  induction stack generalizing ended with
  | nil => exact atTop_eof ended
  | cons frame rest ih =>
    cases frame with
    | block owner statements =>
      rcases ended with ⟨e, braced⟩ | s | _ | ⟨_ | _⟩ | _ <;> cases owner <;> exact ih _
    | hole hole =>
      rcases ended with ⟨e, braced⟩ | s | _ | _ | _
      · cases hole <;> exact ih _
      all_goals exact ih _

theorem operand_eof (stack : Stack) : (operand .eof stack).control = idle :=
  settle_eof stack .refused

theorem missing_eof (expected : Token.Kind) (stack : Stack) :
    (missing expected .eof stack).control = idle :=
  settle_eof stack (.broken false)

theorem step_eof (control : Control) : (control.step .eof).control = idle := by
  obtain ⟨mode, stack⟩ := control
  cases mode with
  | statement | skip | operator _ _ | returned | consequenceEnd _ _ => exact settle_eof _ _
  | operand | arguments _ => exact operand_eof _
  | _ => exact missing_eof _ _

end Control

end Monkey
