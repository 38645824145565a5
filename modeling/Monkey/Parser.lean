import Monkey.Token.Lexer
import Monkey.Parser.Step

/-!
# Parsing

A parser holds the tokens still to be read and the errors found so far. Parsing
reads all of them and then the end of input, and yields every statement that
was not given up; a program counts as accepted only if there are no errors.
-/

set_option autoImplicit false

namespace Monkey

structure Parser where
  pending : List Token
  control : Control
  errors : List ParseError

namespace Parser

def ofTokens (tokens : List Token) : Parser := ⟨tokens, .idle, []⟩

def ofLexer (lexer : Lexer) : Parser := ofTokens (Token.all lexer.rest)

def parse (parser : Parser) : Program × Parser :=
  let move := parser.control.run (parser.pending ++ [.eof])
  (move.statements, ⟨[], move.control, parser.errors ++ move.errors⟩)

def parseProgram (parser : Parser) : Except (List ParseError) Program :=
  let (program, after) := parser.parse
  if after.errors.isEmpty then .ok program else .error after.errors

end Parser

def Program.ofBytes (source : Bytes) : Except (List ParseError) Program :=
  (Parser.ofTokens (Token.all source)).parseProgram

end Monkey
