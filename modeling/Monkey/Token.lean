/-!
# Tokens

The words a program is written in. A token is fixed by its kind, or carries the
text it was read from; its kind forgets that text and is what syntax errors
name. Keywords are the words that cannot be identifiers.
-/

set_option autoImplicit false

namespace Monkey

inductive Operator where
  | not
  | minus
  | plus
  | times
  | divide
  | less
  | greater
  | equal
  | notEqual
  deriving DecidableEq, Repr

namespace Operator

def text : Operator → String
  | not => "!"
  | minus => "-"
  | plus => "+"
  | times => "*"
  | divide => "/"
  | less => "<"
  | greater => ">"
  | equal => "=="
  | notEqual => "!="

def all : List Operator :=
  [not, minus, plus, times, divide, less, greater, equal, notEqual]

/-- How tightly an operator binds two operands. Zero belongs to `!`, which
stands in front of one operand only. -/
def level : Operator → Nat
  | equal | notEqual => 1
  | less | greater => 2
  | plus | minus => 3
  | times | divide => 4
  | not => 0

end Operator

inductive Keyword where
  | fn
  | bind
  | cond
  | otherwise
  | ret
  | bool (value : Bool)
  deriving DecidableEq, Repr

namespace Keyword

def text : Keyword → String
  | fn => "fn"
  | bind => "let"
  | cond => "if"
  | otherwise => "else"
  | ret => "return"
  | bool true => "true"
  | bool false => "false"

def all : List Keyword :=
  [fn, bind, cond, otherwise, ret, bool true, bool false]

def ofText? (text : String) : Option Keyword :=
  all.find? (fun word => word.text == text)

theorem ofText_text (word : Keyword) : ofText? word.text = some word := by
  cases word with
  | bool value => cases value <;> rfl
  | _ => rfl

theorem text_of_ofText {text : String} {word : Keyword} (h : ofText? text = some word) :
    word.text = text := by
  simpa using List.find?_some h

end Keyword

inductive Token where
  | illegal (byte : UInt8)
  | eof
  | ident (name : String)
  | int (digits : String)
  | assign
  | op (operator : Operator)
  | comma
  | semicolon
  | lparen
  | rparen
  | lbrace
  | rbrace
  | keyword (word : Keyword)
  deriving DecidableEq, Repr

namespace Token

/-- What is left of a token when the text it carries is forgotten. -/
inductive Kind where
  | illegal
  | eof
  | ident
  | int
  | assign
  | op (operator : Operator)
  | comma
  | semicolon
  | lparen
  | rparen
  | lbrace
  | rbrace
  | keyword (word : Keyword)
  deriving DecidableEq, Repr

def kind : Token → Kind
  | illegal _ => .illegal
  | eof => .eof
  | ident _ => .ident
  | int _ => .int
  | assign => .assign
  | op o => .op o
  | comma => .comma
  | semicolon => .semicolon
  | lparen => .lparen
  | rparen => .rparen
  | lbrace => .lbrace
  | rbrace => .rbrace
  | keyword word => .keyword word

def Kind.name : Kind → String
  | illegal => "Illegal"
  | eof => "Eof"
  | ident => "Ident"
  | int => "Int"
  | assign => "Assign"
  | op .plus => "Plus"
  | op .minus => "Minus"
  | op .divide => "Slash"
  | op .times => "Asterisk"
  | op .not => "Bang"
  | op .less => "LT"
  | op .greater => "GT"
  | op .equal => "Eq"
  | op .notEqual => "NotEq"
  | comma => "Comma"
  | semicolon => "Semicolon"
  | lparen => "LParen"
  | rparen => "RParen"
  | lbrace => "LBrace"
  | rbrace => "RBrace"
  | keyword .otherwise => "Else"
  | keyword (.bool false) => "False"
  | keyword .fn => "Function"
  | keyword .cond => "If"
  | keyword .bind => "Let"
  | keyword .ret => "Return"
  | keyword (.bool true) => "True"

def ofWord (text : String) : Token :=
  match Keyword.ofText? text with
  | some word => keyword word
  | none => ident text

/-- The source text of a token. An illegal byte shows as the character of the
same number, and the end of input has no text. -/
def text : Token → String
  | illegal byte => String.singleton (Char.ofUInt8 byte)
  | eof => ""
  | ident name => name
  | int digits => digits
  | assign => "="
  | op o => o.text
  | comma => ","
  | semicolon => ";"
  | lparen => "("
  | rparen => ")"
  | lbrace => "\x7b"
  | rbrace => "\x7d"
  | keyword word => word.text

def operator? : Token → Option Operator
  | op o => some o
  | _ => none

end Token

end Monkey
