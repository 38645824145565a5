import Monkey.Token.Lexer

/-!
# Reading byte by byte

The tokens of a text, read with a cursor that stands at one byte and knows the place
of the next. At the end it stands at a zero byte, which may also be part of the text.
Words and numbers are cut out of the text by their places. A cut out of bounds or
within a character ends everything without an answer.
-/

set_option autoImplicit false

namespace Monkey

/-- The part of a text between two places, if they are in order and neither of them
is behind the end or within a character. -/
def slice? (text : String) (start stop : Nat) : Option String :=
  if h : String.Pos.Raw.IsValid text ⟨start⟩ ∧ String.Pos.Raw.IsValid text ⟨stop⟩ ∧
      start ≤ stop then
    some (String.extract (text.pos ⟨start⟩ h.1) (text.pos ⟨stop⟩ h.2.1))
  else none

/-- A kind of bytes that the zero byte is not of, so that a run of them stops at the end. -/
structure ByteKind where
  holds : UInt8 → Bool
  zero : holds 0 = false

namespace ByteKind

def blank : ByteKind := ⟨isBlank, rfl⟩

def letter : ByteKind := ⟨isLetter, rfl⟩

def digit : ByteKind := ⟨isDigit, rfl⟩

end ByteKind

structure Cursor where
  text : String
  position : Nat
  readPosition : Nat
  ch : UInt8
  finished : Bool
  /-- Where words and numbers have been cut out, the last of them first. -/
  cuts : List (Nat × Nat)
  deriving DecidableEq, Repr

namespace Cursor

def bytes (cursor : Cursor) : Bytes := Bytes.ofText cursor.text

def peekChar (cursor : Cursor) : UInt8 := cursor.bytes[cursor.readPosition]?.getD 0

def readChar (cursor : Cursor) : Cursor :=
  { cursor with
    ch := cursor.peekChar
    position := cursor.readPosition
    readPosition := cursor.readPosition + 1 }

def ofText (text : String) : Cursor := readChar ⟨text, 0, 0, 0, false, []⟩

/-- What is left of a run: the bytes that have not been looked at, and the current one. -/
def left (kind : ByteKind) (cursor : Cursor) : Nat :=
  cursor.bytes.length - cursor.readPosition + (kind.holds cursor.ch).toNat

theorem left_readChar_lt {kind : ByteKind} {cursor : Cursor}
    (h : kind.holds cursor.ch = true) : cursor.readChar.left kind < cursor.left kind := by
  have hone : (kind.holds cursor.readChar.ch).toNat ≤ 1 := Bool.toNat_le _
  have hlength : cursor.readChar.bytes.length = cursor.bytes.length := rfl
  have hplace : cursor.readChar.readPosition = cursor.readPosition + 1 := rfl
  rw [left, left, h, hlength, hplace, Bool.toNat_true]
  rcases Nat.lt_or_ge cursor.readPosition cursor.bytes.length with hlt | hge
  · omega
  · have hstop : cursor.readChar.ch = 0 := by
      change cursor.bytes[cursor.readPosition]?.getD 0 = 0
      rw [List.getElem?_eq_none hge, Option.getD_none]
    rw [hstop, kind.zero, Bool.toNat_false]
    omega

def skipWhile (kind : ByteKind) (cursor : Cursor) : Cursor :=
  if h : kind.holds cursor.ch = true then
    have := left_readChar_lt h
    skipWhile kind cursor.readChar
  else cursor
termination_by cursor.left kind

def noteCut (start : Nat) (cursor : Cursor) : Cursor :=
  { cursor with cuts := (start, cursor.position) :: cursor.cuts }

def cutWhile? (kind : ByteKind) (cursor : Cursor) : Option (String × Cursor) :=
  let after := cursor.skipWhile kind
  (slice? cursor.text cursor.position after.position).map fun word =>
    (word, after.noteCut cursor.position)

def scan? (cursor : Cursor) : Option (Token × Cursor) :=
  if isLetter cursor.ch then
    (cursor.cutWhile? .letter).map fun (word, after) => (.ofWord word, after)
  else if isDigit cursor.ch then
    (cursor.cutWhile? .digit).map fun (digits, after) => (.int digits, after)
  else
    match (Token.ofByte cursor.ch).joined?, cursor.peekChar with
    | some token, 61 => some (token, cursor.readChar.readChar)
    | _, _ => some (Token.ofByte cursor.ch, cursor.readChar)

def nextToken? (cursor : Cursor) : Option (Token × Cursor) :=
  let cursor := cursor.skipWhile .blank
  if cursor.bytes.length ≤ cursor.position then some (.eof, cursor) else cursor.scan?

def next? (cursor : Cursor) : Option (Option Token × Cursor) :=
  if cursor.finished then some (none, cursor)
  else
    cursor.nextToken?.map fun (token, after) =>
      (some token, if token = .eof then { after with finished := true } else after)

def perform? (cursor : Cursor) : Lexer.Call → Option (Option Token × Cursor)
  | .next => cursor.next?
  | .nextToken => cursor.nextToken?.map fun (token, after) => (some token, after)

def performAll? (cursor : Cursor) :
    List Lexer.Call → Option (List (Lexer.Call × Option Token) × Cursor)
  | [] => some ([], cursor)
  | call :: calls => do
    let (answer, after) ← cursor.perform? call
    let (history, last) ← after.performAll? calls
    some ((call, answer) :: history, last)

end Cursor

end Monkey
