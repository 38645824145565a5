import Monkey.Token.Lexer

/-!
# Spellings

What it means for bytes to spell tokens, said without reading them from left to
right: a source is cut into blanks and spellings, and no spelling stands in
front of a byte that would still belong to it.
-/

set_option autoImplicit false

namespace Monkey

def isSign (byte : UInt8) : Bool :=
  [33, 40, 41, 42, 43, 44, 45, 47, 59, 60, 61, 62, 123, 125].contains byte

namespace Token

/-- The bytes spell the token. No bytes spell the end of input. -/
def SpelledBy (bytes : Bytes) : Token → Prop
  | illegal byte => bytes = [byte] ∧
      isBlank byte = false ∧ isLetter byte = false ∧ isDigit byte = false ∧ isSign byte = false
  | eof => False
  | ident name => bytes ≠ [] ∧ (∀ byte ∈ bytes, isLetter byte = true) ∧
      bytes.toText = name ∧ Keyword.ofText? name = none
  | int digits => bytes ≠ [] ∧ (∀ byte ∈ bytes, isDigit byte = true) ∧ bytes.toText = digits
  | token => bytes = Bytes.ofText token.text

/-- The byte, right behind the spelling of the token, would be read as part of it. -/
def absorbs (byte : UInt8) : Token → Bool
  | ident _ => isLetter byte
  | keyword _ => isLetter byte
  | int _ => isDigit byte
  | assign => byte == 61
  | op .not => byte == 61
  | _ => false

end Token

inductive Splits : Bytes → List Token → Prop where
  | done (blanks : Bytes) (h : ∀ byte ∈ blanks, isBlank byte = true) : Splits blanks []
  | token (blanks spelling rest : Bytes) (t : Token) (ts : List Token)
      (hblanks : ∀ byte ∈ blanks, isBlank byte = true) (hspelling : t.SpelledBy spelling)
      (hend : ∀ byte ∈ rest.head?, t.absorbs byte = false) (hrest : Splits rest ts) :
      Splits (blanks ++ spelling ++ rest) (t :: ts)

end Monkey
