import Monkey.Token

/-!
# Reading tokens from bytes

Source text is read byte by byte. Blanks separate tokens and are dropped, each
token is the longest that the bytes at hand spell, and a byte that can start no
token is a token of its own. Reading never fails, and what it leaves is always
shorter than what it was given.
-/

set_option autoImplicit false

namespace Monkey

abbrev Bytes := List UInt8

def Bytes.ofText (text : String) : Bytes :=
  text.toList.flatMap String.utf8EncodeChar

/-- Reads each byte as the character of the same number. -/
def Bytes.toText (bytes : Bytes) : String :=
  String.ofList (bytes.map Char.ofUInt8)

def isBlank (byte : UInt8) : Bool :=
  byte == 32 || byte == 9 || byte == 10 || byte == 12 || byte == 13

def isLetter (byte : UInt8) : Bool :=
  (65 ≤ byte && byte ≤ 90) || (97 ≤ byte && byte ≤ 122) || byte == 95

def isDigit (byte : UInt8) : Bool :=
  48 ≤ byte && byte ≤ 57

namespace Token

def ofByte (byte : UInt8) : Token :=
  match Char.ofUInt8 byte with
  | '=' => .assign
  | '!' => .op .not
  | '+' => .op .plus
  | '-' => .op .minus
  | '*' => .op .times
  | '/' => .op .divide
  | '<' => .op .less
  | '>' => .op .greater
  | ',' => .comma
  | ';' => .semicolon
  | '(' => .lparen
  | ')' => .rparen
  | '\x7b' => .lbrace
  | '\x7d' => .rbrace
  | _ => .illegal byte

/-- The token that `=` makes of the one in front of it, if it joins it. -/
def joined? : Token → Option Token
  | .assign => some (.op .equal)
  | .op .not => some (.op .notEqual)
  | _ => none

def scan (byte : UInt8) (rest : Bytes) : Token × Bytes :=
  if isLetter byte then
    (ofWord (Bytes.toText (byte :: rest.takeWhile isLetter)), rest.dropWhile isLetter)
  else if isDigit byte then
    (.int (Bytes.toText (byte :: rest.takeWhile isDigit)), rest.dropWhile isDigit)
  else
    match (ofByte byte).joined?, rest with
    | some token, 61 :: rest => (token, rest)
    | _, _ => (ofByte byte, rest)

theorem dropWhile_length_le (p : UInt8 → Bool) (bytes : Bytes) :
    (bytes.dropWhile p).length ≤ bytes.length :=
  (List.dropWhile_sublist p).length_le

theorem scan_length_le (byte : UInt8) (rest : Bytes) :
    (scan byte rest).2.length ≤ rest.length := by
  unfold scan
  split
  · exact dropWhile_length_le _ _
  · split
    · exact dropWhile_length_le _ _
    · split
      · simp
      · exact Nat.le_refl _

theorem scan_length_lt {bytes rest : Bytes} {byte : UInt8}
    (h : bytes.dropWhile isBlank = byte :: rest) :
    (scan byte rest).2.length < bytes.length := by
  have hscan := scan_length_le byte rest
  have hdrop := dropWhile_length_le isBlank bytes
  rw [h, List.length_cons] at hdrop
  omega

/-- All tokens of a source, the end of input not among them. -/
def all (bytes : Bytes) : List Token :=
  match h : bytes.dropWhile isBlank with
  | [] => []
  | byte :: rest =>
    have := scan_length_lt h
    (scan byte rest).1 :: all (scan byte rest).2
termination_by bytes.length

end Token

/-- A place in a source, from which tokens are read one after another. It is
finished once the stream of tokens has itself delivered the end of input. -/
structure Lexer where
  source : Bytes
  position : Nat
  finished : Bool
  deriving DecidableEq, Repr

namespace Lexer

def ofBytes (source : Bytes) : Lexer := ⟨source, 0, false⟩

def ofText (text : String) : Lexer := ofBytes (Bytes.ofText text)

def rest (lexer : Lexer) : Bytes := lexer.source.drop lexer.position

def current (lexer : Lexer) : UInt8 := lexer.rest.headD 0

def moveTo (lexer : Lexer) (rest : Bytes) : Lexer :=
  ⟨lexer.source, lexer.source.length - rest.length, lexer.finished⟩

/-- The next token, the end of input for ever once the source is used up. -/
def nextToken (lexer : Lexer) : Token × Lexer :=
  match lexer.rest.dropWhile isBlank with
  | [] => (.eof, lexer.moveTo [])
  | byte :: rest => ((Token.scan byte rest).1, lexer.moveTo (Token.scan byte rest).2)

/-- The next token of the stream, which ends after its first end of input. -/
def next (lexer : Lexer) : Option Token × Lexer :=
  if lexer.finished then (none, lexer)
  else
    match lexer.nextToken with
    | (.eof, after) => (some .eof, ⟨after.source, after.position, true⟩)
    | (token, after) => (some token, after)

def drain (lexer : Lexer) : List Token × Lexer :=
  if lexer.finished then ([], lexer)
  else (Token.all lexer.rest ++ [.eof], ⟨lexer.source, lexer.source.length, true⟩)

def skip : Nat → Lexer → Lexer
  | 0, lexer => lexer
  | count + 1, lexer => skip count lexer.nextToken.2

/-- The two ways of asking a lexer for a token: as a stream, and directly. -/
inductive Call where
  | next
  | nextToken
  deriving DecidableEq, Repr

def perform (lexer : Lexer) : Call → Option Token × Lexer
  | .next => lexer.next
  | .nextToken => (some lexer.nextToken.1, lexer.nextToken.2)

def performAll (lexer : Lexer) : List Call → List (Call × Option Token) × Lexer
  | [] => ([], lexer)
  | call :: calls =>
    let later := (lexer.perform call).2.performAll calls
    ((call, (lexer.perform call).1) :: later.1, later.2)

end Lexer

end Monkey
