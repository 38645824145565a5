import Monkey.Parser.Control
import Monkey.Syntax.Grammar

/-!
# Parsing by descent

The same syntax, read the other way round: there is a function for each construct,
which calls the functions for its parts. A function stands at a token, looks at it
and at the one behind it, and either comes to a result, standing at the last token
of its construct, or gives up. Whoever has called it gives up as well, up to the
statement; there the rest of the statement is skipped.

Constructs contain one another, and there are as many of each as the input has, so
the functions call one another without a bound that could be seen from their text.
Here a limit on nested calls cuts them off. On the way it is written down which
errors are found and how every attempt to read a statement ends.
-/

set_option autoImplicit false

namespace Monkey

/-- The tokens at all places. Behind the last one there is the end of input, for ever. -/
abbrev TokenStream := Nat → Token

def TokenStream.ofList (ts : List Token) : TokenStream := fun place => ts.getD place .eof

inductive Note where
  /-- An error about the token at `place`. -/
  | error (place : Nat) (error : ParseError)
  /-- An attempt to read a statement from `start` on has ended at `stop`, with a statement
  or without. -/
  | attempt (start stop : Nat) (result : Option Stmt)

/-- What comes of reading: a result, nothing because something is broken, or no answer
within the limit; with the place of the token that reading has stopped at. -/
inductive Reading (α : Type) where
  | done (result : α) (place : Nat) (notes : List Note)
  | broken (place : Nat) (notes : List Note)
  | unfinished

def Reading.after {α : Type} (notes : List Note) : Reading α → Reading α
  | done result place later => .done result place (notes ++ later)
  | broken place later => .broken place (notes ++ later)
  | unfinished => .unfinished

def Descent (α : Type) : Type := Nat → Reading α

namespace Descent

section Parts

variable {α β : Type}

def pure (result : α) : Descent α := fun place => .done result place []

def refuse (error : ParseError) : Descent α := fun place => .broken place [.error place error]

def either (first : Descent α) (next : α → Descent β) (otherwise : Descent β) : Descent β :=
  fun place =>
    match first place with
    | .done result place notes => (next result place).after notes
    | .broken place notes => (otherwise place).after notes
    | .unfinished => .unfinished

def bind (first : Descent α) (next : α → Descent β) : Descent β :=
  first.either next fun place => .broken place []

def advance : Descent Unit := fun place => .done () (place + 1) []

theorem advance_bind (next : Unit → Descent β) (place : Nat) :
    advance.bind next place = next () (place + 1) := by
  simp only [bind, either, advance]
  cases next () (place + 1) <;> rfl

theorem bind_done {first : Descent α} {next : α → Descent β} {result : α} {place stop : Nat}
    {notes : List Note} (h : first place = .done result stop notes) :
    first.bind next place = (next result stop).after notes := by
  simp only [bind, either, h]

theorem bind_broken {first : Descent α} {next : α → Descent β} {place stop : Nat}
    {notes : List Note} (h : first place = .broken stop notes) :
    first.bind next place = .broken stop notes := by
  simp only [bind, either, h, Reading.after, List.append_nil]

theorem bind_unfinished {first : Descent α} {next : α → Descent β} {place : Nat}
    (h : first place = .unfinished) : first.bind next place = .unfinished := by
  simp only [bind, either, h]

end Parts

/-- The functions that are called while others are still at work. -/
structure Readers where
  expression : Nat → Descent Expr
  extension : Nat → Expr → Descent Expr
  arguments : List Expr → Descent (List Expr)
  parameters : List String → Descent (List String)
  block : Block → Descent Block
  skipping : Descent Unit
  program : Program → Descent Program

section

variable (stream : TokenStream)

def expect (expected : Token) : Descent Unit := fun place =>
  if stream (place + 1) = expected then advance place
  else .broken place
    [.error (place + 1) (.unexpected expected.kind (stream (place + 1)).kind)]

def expectName : Descent String := fun place =>
  match stream (place + 1) with
  | .ident name => .done name (place + 1) []
  | t => .broken place [.error (place + 1) (.unexpected .ident t.kind)]

def semicolon : Descent Unit := fun place =>
  if stream (place + 1) = .semicolon then advance place else pure () place

variable (readers : Readers)

def operation (o : Operator) : Descent Expr :=
  advance.bind fun _ => (readers.expression 5).bind fun e => pure (.prefixOp o e)

def group : Descent Expr :=
  advance.bind fun _ => (readers.expression 0).bind fun e =>
    (expect stream .rparen).bind fun _ => pure e

def block : Descent Block := advance.bind fun _ => readers.block []

def alternative (c : Expr) (a : Block) : Descent Expr := fun place =>
  if stream (place + 1) = .keyword .otherwise then
    (advance.bind fun _ => (expect stream .lbrace).bind fun _ =>
      (block readers).bind fun b => pure (.cond c a (some b))) place
  else pure (.cond c a none) place

def conditional : Descent Expr :=
  (expect stream .lparen).bind fun _ => advance.bind fun _ =>
    (readers.expression 0).bind fun c => (expect stream .rparen).bind fun _ =>
      (expect stream .lbrace).bind fun _ => (block readers).bind fun a =>
        alternative stream readers c a

def moreParameters (ps : List String) : Descent (List String) := fun place =>
  if stream (place + 1) = .comma then
    (advance.bind fun _ => (expectName stream).bind fun name =>
      readers.parameters (ps ++ [name])) place
  else ((expect stream .rparen).bind fun _ => pure ps) place

def parameters : Descent (List String) := fun place =>
  if stream (place + 1) = .rparen then .done [] (place + 1) []
  else ((expectName stream).bind fun name => readers.parameters [name]) place

def literal : Descent Expr :=
  (expect stream .lparen).bind fun _ => (parameters stream readers).bind fun ps =>
    (expect stream .lbrace).bind fun _ => (block readers).bind fun body => pure (.fn ps body)

def operand : Descent Expr := fun place =>
  match stream place with
  | .ident name => pure (.ident name) place
  | .int digits =>
    match integerValue? digits with
    | some value => pure (.int value) place
    | none => refuse (.integerTooLarge digits) place
  | .keyword (.bool value) => pure (.bool value) place
  | .op .not => operation readers .not place
  | .op .minus => operation readers .minus place
  | .lparen => group stream readers place
  | .keyword .cond => conditional stream readers place
  | .keyword .fn => literal stream readers place
  | t => refuse (.noExpression t.kind) place

def moreArguments (es : List Expr) : Descent (List Expr) := fun place =>
  if stream (place + 1) = .comma then
    (advance.bind fun _ => advance.bind fun _ => (readers.expression 0).bind fun e =>
      readers.arguments (es ++ [e])) place
  else ((expect stream .rparen).bind fun _ => pure es) place

def arguments : Descent (List Expr) := fun place =>
  if stream (place + 1) = .rparen then .done [] (place + 1) []
  else (advance.bind fun _ => (readers.expression 0).bind fun e => readers.arguments [e]) place

def extended (left : Expr) : Descent Expr := fun place =>
  match stream place with
  | .op o =>
    (advance.bind fun _ => (readers.expression o.level).bind fun right =>
      pure (.infixOp o left right)) place
  | _ => ((arguments stream readers).bind fun es => pure (.call left es)) place

def extension (level : Nat) (left : Expr) : Descent Expr := fun place =>
  if level < (stream (place + 1)).level then
    (advance.bind fun _ => (extended stream readers left).bind fun e =>
      readers.extension level e) place
  else pure left place

def expression (level : Nat) : Descent Expr :=
  (operand stream readers).bind fun left => readers.extension level left

def binding : Descent Stmt :=
  (expectName stream).bind fun name => (expect stream .assign).bind fun _ =>
    advance.bind fun _ => (readers.expression 0).bind fun e =>
      (semicolon stream).bind fun _ => pure (.bind name e)

def returning : Descent Stmt := fun place =>
  if stream (place + 1) = .semicolon then .done (.ret none) (place + 1) []
  else if stream (place + 1) = .rbrace ∨ stream (place + 1) = .eof then pure (.ret none) place
  else
    (advance.bind fun _ => (readers.expression 0).bind fun e =>
      (semicolon stream).bind fun _ => pure (.ret (some e))) place

def simple : Descent Stmt :=
  (readers.expression 0).bind fun e => (semicolon stream).bind fun _ => pure (.expr e)

def attempt (body : Descent Stmt) : Descent Stmt := fun place =>
  match body place with
  | .done s stop notes => .done s stop (notes ++ [.attempt place stop (some s)])
  | .broken stop notes => .broken stop (notes ++ [.attempt place stop none])
  | .unfinished => .unfinished

def statement : Descent Stmt := attempt fun place =>
  match stream place with
  | .keyword .bind => binding stream readers place
  | .keyword .ret => returning stream readers place
  | _ => simple stream readers place

/-- Skips the rest of a broken statement. One that broke on a closing brace stays on it. -/
def synchronize : Descent Unit := fun place =>
  if stream place = .rbrace then pure () place else readers.skipping place

def skipping : Descent Unit := fun place =>
  if stream place = .semicolon ∨ stream place = .eof ∨ stream (place + 1) = .rbrace then
    pure () place
  else (advance.bind fun _ => readers.skipping) place

def resumed (ss : Block) : Descent Block := fun place =>
  if stream place = .rbrace then pure ss place
  else (advance.bind fun _ => readers.block ss) place

def moreStatements (ss : Block) : Descent Block := fun place =>
  if stream place = .rbrace ∨ stream place = .eof then pure ss place
  else
    (statement stream readers).either (fun s => advance.bind fun _ => readers.block (ss ++ [s]))
      ((synchronize stream readers).bind fun _ => resumed stream readers ss) place

/-- Outside of all blocks. Whatever a broken statement stops at is stepped past. -/
def topStatements (ss : Program) : Descent Program := fun place =>
  if stream place = .eof then pure ss place
  else
    (statement stream readers).either (fun s => advance.bind fun _ => readers.program (ss ++ [s]))
      ((synchronize stream readers).bind fun _ => advance.bind fun _ => readers.program ss) place

/-- The functions whose calls of one another are those of `readers`. -/
def Readers.around : Readers where
  expression := Descent.expression stream readers
  extension := Descent.extension stream readers
  arguments := moreArguments stream readers
  parameters := moreParameters stream readers
  block := moreStatements stream readers
  skipping := Descent.skipping stream readers
  program := topStatements stream readers

end

/-- The functions with at most `limit` calls of one another at work at once. -/
def readers (stream : TokenStream) : Nat → Readers
  | 0 => ⟨fun _ _ => .unfinished, fun _ _ _ => .unfinished, fun _ _ => .unfinished,
      fun _ _ => .unfinished, fun _ _ => .unfinished, fun _ => .unfinished, fun _ _ => .unfinished⟩
  | limit + 1 => Readers.around stream (readers stream limit)

end Descent

def TokenStream.read (stream : TokenStream) (limit : Nat) : Descent Program :=
  (Descent.readers stream limit).program []

end Monkey
