import Mathlib.Data.List.Forall2
import Monkey.Token.Cursor
import Monkey.Proofs.Tokenization

/-!
# A cursor stays within its text

The place of a cursor never goes past the end of the text, the next place is one
further, and the current byte is the one at the place, or zero at the end. A run of
letters or digits is not empty and holds no byte of a longer character, so it begins
and ends between characters, and cutting it out goes well. The tokens are those of a
lexer that reads the text as a list of bytes.
-/

set_option autoImplicit false

namespace Monkey

/-! ### Bytes and the characters around them -/

namespace Bytes

theorem toByteArray_ofText (text : String) : (ofText text).toByteArray = text.toByteArray := by
  conv => rhs; rw [← String.ofList_toList (s := text), String.toByteArray_ofList]
  rfl

theorem length_ofText (text : String) : (ofText text).length = text.utf8ByteSize := by
  rw [← String.size_toByteArray, ← toByteArray_ofText, List.size_toByteArray]

theorem char_of_mem {c : Char} {b : UInt8} (h : b ∈ String.utf8EncodeChar c)
    (hb : b.toNat < 128) : c = Char.ofUInt8 b := by
  have hc : c.val.toNat < 128 := by
    simp only [String.utf8EncodeChar] at h
    split at h
    · omega
    · exfalso
      (repeat' split at h) <;> simp [← UInt8.toNat_inj] at h <;> omega
  rw [encode_ascii hc] at h
  rw [List.mem_singleton.1 h, decode_ascii hc]

theorem chars_before {cs : List Char} {front back : Bytes} {b : UInt8} (hb : b.toNat < 128)
    (h : cs.flatMap String.utf8EncodeChar = front ++ b :: back) :
    ∃ before behind, cs = before ++ behind ∧ before.flatMap String.utf8EncodeChar = front ∧
      behind.flatMap String.utf8EncodeChar = b :: back := by
  induction cs generalizing front with
  | nil => simp at h
  | cons c cs ih =>
    rcases List.append_eq_append_iff.1 (List.flatMap_cons.symm.trans h) with
      ⟨front', rfl, hcs⟩ | ⟨tail, hc, hcs⟩
    · obtain ⟨before, behind, rfl, rfl, hbehind⟩ := ih hcs
      exact ⟨c :: before, behind, rfl, rfl, hbehind⟩
    · cases tail with
      | nil => exact ⟨[c], cs, rfl, by simpa using hc, hcs.symm⟩
      | cons d tail =>
        -- the byte is all of the character, so nothing of it stands in front
        obtain ⟨rfl, -⟩ := List.cons.inj hcs
        have hchar := char_of_mem (c := c) (by rw [hc]; simp) hb
        rw [hchar, encode_ofUInt8 hb] at hc
        rcases List.singleton_eq_append_iff.1 hc with ⟨rfl, -⟩ | ⟨-, htail⟩
        · exact ⟨[], c :: cs, rfl, rfl, h⟩
        · cases htail

theorem chars_ascii {cs : List Char} {word back : Bytes} (hword : ∀ b ∈ word, b.toNat < 128)
    (h : cs.flatMap String.utf8EncodeChar = word ++ back) :
    ∃ behind, cs = word.map Char.ofUInt8 ++ behind := by
  induction word generalizing cs with
  | nil => exact ⟨cs, rfl⟩
  | cons b word ih =>
    have hb := hword b List.mem_cons_self
    cases cs with
    | nil => simp at h
    | cons c cs =>
      have hmem : b ∈ String.utf8EncodeChar c := by
        cases hc : String.utf8EncodeChar c with
        | nil => exact absurd hc String.utf8EncodeChar_ne_nil
        | cons d tail =>
          rw [List.flatMap_cons, hc] at h
          rw [(List.cons.inj h).1]
          exact List.mem_cons_self
      obtain rfl := char_of_mem hmem hb
      rw [List.flatMap_cons, encode_ofUInt8 hb] at h
      obtain ⟨behind, rfl⟩ :=
        ih (fun d hd => hword d (List.mem_cons_of_mem b hd)) (List.cons.inj h).2
      exact ⟨behind, rfl⟩

theorem text_around {text : String} {front word back : Bytes} (hne : word ≠ [])
    (hword : ∀ b ∈ word, b.toNat < 128) (h : ofText text = front ++ word ++ back) :
    ∃ before behind : String, text = before ++ word.toText ++ behind ∧ ofText before = front := by
  obtain ⟨b, tail, rfl⟩ := List.exists_cons_of_ne_nil hne
  obtain ⟨before, later, hchars, hbefore, hlater⟩ :=
    chars_before (hword b List.mem_cons_self) (h.trans (List.append_assoc _ _ _))
  obtain ⟨behind, rfl⟩ := chars_ascii hword hlater
  refine ⟨String.ofList before, String.ofList behind, ?_, by rw [ofText_ofList, hbefore]⟩
  rw [← String.ofList_toList (s := text), hchars, ← List.append_assoc, String.ofList_append,
    String.ofList_append]
  rfl

end Bytes

/-! ### Cuts -/

theorem extract_front (front back : String) :
    (front ++ back).toByteArray.extract 0 front.utf8ByteSize = front.toByteArray := by
  rw [String.toByteArray_append]
  exact ByteArray.extract_append_eq_left String.size_toByteArray.symm

/-- A slice is the part of the text between two others. The one in front ends at the first
place, and together with the slice at the second. -/
theorem slice_eq_some_iff {text word : String} {start stop : Nat} :
    slice? text start stop = some word ↔ ∃ before behind : String,
      text = before ++ word ++ behind ∧ before.utf8ByteSize = start ∧
      (before ++ word).utf8ByteSize = stop := by
  constructor
  · intro h
    obtain ⟨⟨hstart, hstop, horder⟩, hword⟩ := Option.dite_none_right_eq_some.1 h
    obtain ⟨before, later, htext, hfirst⟩ := String.Pos.Raw.isValid_iff_exists_append.1 hstart
    obtain ⟨earlier, behind, htext', hlast⟩ := String.Pos.Raw.isValid_iff_exists_append.1 hstop
    obtain rfl : start = before.utf8ByteSize := congrArg String.Pos.Raw.byteIdx hfirst
    obtain rfl : stop = earlier.utf8ByteSize := congrArg String.Pos.Raw.byteIdx hlast
    have hearlier : before ++ word = earlier := by
      rw [← String.toByteArray_inj, String.toByteArray_append, ← Option.some.inj hword,
        String.toByteArray_extract]
      calc before.toByteArray ++
            text.toByteArray.extract before.utf8ByteSize earlier.utf8ByteSize
          = text.toByteArray.extract 0 before.utf8ByteSize ++
            text.toByteArray.extract before.utf8ByteSize earlier.utf8ByteSize := by
            rw [htext, extract_front]
        _ = text.toByteArray.extract 0 earlier.utf8ByteSize := by
            rw [ByteArray.extract_append_extract, Nat.zero_min, Nat.max_eq_right horder]
        _ = earlier.toByteArray := by rw [htext', extract_front]
    exact ⟨before, behind, by rw [hearlier, htext'], rfl, by rw [hearlier]⟩
  · rintro ⟨before, behind, rfl, rfl, rfl⟩
    have hstart : String.Pos.Raw.IsValid (before ++ word ++ behind) ⟨before.utf8ByteSize⟩ :=
      String.Pos.Raw.isValid_iff_exists_append.2
        ⟨before, word ++ behind, String.append_assoc, rfl⟩
    have hstop : String.Pos.Raw.IsValid (before ++ word ++ behind)
        ⟨(before ++ word).utf8ByteSize⟩ :=
      String.Pos.Raw.isValid_iff_exists_append.2 ⟨before ++ word, behind, rfl, rfl⟩
    have horder : before.utf8ByteSize ≤ (before ++ word).utf8ByteSize := by
      rw [String.utf8ByteSize_append]
      exact Nat.le_add_right _ _
    rw [slice?, dif_pos ⟨hstart, hstop, horder⟩, Option.some_inj, ← String.toByteArray_inj,
      String.toByteArray_extract]
    simp only [String.offset_pos, ← String.size_toByteArray, String.toByteArray_append]
    rw [ByteArray.extract_append_size_left,
      ByteArray.extract_append_eq_right rfl ByteArray.size_append]

/-- The cut gives the word. It is not empty and within the text, it begins and ends between
characters, and all of its bytes are ASCII. -/
structure CutOf (text : String) (cut : Nat × Nat) (word : String) : Prop where
  slice_eq : slice? text cut.1 cut.2 = some word
  nonempty : cut.1 < cut.2
  bounded : cut.2 ≤ (Bytes.ofText text).length
  between : ∃ before behind : String, text = before ++ word ++ behind ∧
    before.utf8ByteSize = cut.1 ∧ (before ++ word).utf8ByteSize = cut.2
  ascii : ∀ b ∈ Bytes.ofText word, b.toNat < 128

theorem cutOf_ascii {text : String} {front word back : Bytes} (hne : word ≠ [])
    (hword : ∀ b ∈ word, b.toNat < 128) (h : Bytes.ofText text = front ++ word ++ back) :
    CutOf text (front.length, (front ++ word).length) word.toText := by
  obtain ⟨before, behind, htext, hbefore⟩ := Bytes.text_around hne hword h
  have hstart : before.utf8ByteSize = front.length := by
    rw [← Bytes.length_ofText, hbefore]
  have hstop : (before ++ word.toText).utf8ByteSize = (front ++ word).length := by
    rw [← Bytes.length_ofText, Bytes.ofText_append, hbefore, Bytes.ofText_toText hword]
  have hpos := List.length_pos_iff.2 hne
  exact
    { slice_eq := slice_eq_some_iff.2 ⟨before, behind, htext, hstart, hstop⟩
      nonempty := by simpa using hpos
      bounded := by simp [h]
      between := ⟨before, behind, htext, hstart, hstop⟩
      ascii := by rwa [Bytes.ofText_toText hword] }

namespace Token

def word? : Token → Option String
  | ident name => some name
  | keyword word => some word.text
  | int digits => some digits
  | _ => none

theorem word_ofWord (text : String) : (ofWord text).word? = some text := by
  unfold ofWord
  split
  · next h => exact congrArg some (Keyword.text_of_ofText h)
  · rfl

theorem word_ofByte (byte : UInt8) : (ofByte byte).word? = none := by
  unfold ofByte
  split <;> rfl

theorem word_joined {t joined : Token} (h : t.joined? = some joined) : joined.word? = none := by
  unfold joined? at h
  split at h <;> cases h <;> rfl

end Token

namespace Lexer

def words (history : List (Call × Option Token)) : List String :=
  (history.filterMap fun entry => entry.2.bind Token.word?).reverse

theorem words_cons (call : Call) (answer : Option Token) (history : List (Call × Option Token)) :
    words ((call, answer) :: history) =
      words history ++ (answer.bind Token.word?).toList := by
  unfold words
  rw [List.filterMap_cons]
  cases answer.bind Token.word? with
  | none => exact (List.append_nil _).symm
  | some word => exact List.reverse_cons

end Lexer

namespace Cursor

/-! ### Standing within the text -/

/-- The cursor stands at a byte of its text or at the end, and the words have been cut out of
the text, the last of them first. -/
structure Sound (words : List String) (cursor : Cursor) : Prop where
  ahead : cursor.readPosition = cursor.position + 1
  bounded : cursor.position ≤ cursor.bytes.length
  standing : ∀ h : cursor.position < cursor.bytes.length, cursor.ch = cursor.bytes[cursor.position]
  atEnd : cursor.position = cursor.bytes.length → cursor.ch = 0
  cuts : List.Forall₂ (CutOf cursor.text) cursor.cuts words

def lexer (cursor : Cursor) : Lexer := ⟨cursor.bytes, cursor.position, cursor.finished⟩

variable {words : List String} {cursor : Cursor} {kind : ByteKind}

theorem Sound.of_current (hahead : cursor.readPosition = cursor.position + 1)
    (hbounded : cursor.position ≤ cursor.bytes.length)
    (hch : cursor.ch = cursor.bytes[cursor.position]?.getD 0)
    (hcuts : List.Forall₂ (CutOf cursor.text) cursor.cuts words) : cursor.Sound words where
  ahead := hahead
  bounded := hbounded
  standing := fun h => by rw [hch, List.getElem?_eq_getElem h, Option.getD_some]
  atEnd := fun h => by rw [hch, List.getElem?_eq_none (Nat.le_of_eq h.symm), Option.getD_none]
  cuts := hcuts

theorem sound_ofText (text : String) : (ofText text).Sound [] :=
  .of_current rfl (Nat.zero_le _) rfl .nil

namespace Sound

theorem inside_of_ne (h : cursor.Sound words) (hch : cursor.ch ≠ 0) :
    cursor.position < cursor.bytes.length :=
  Nat.lt_of_le_of_ne h.bounded fun hend => hch (h.atEnd hend)

theorem inside (h : cursor.Sound words) (hch : kind.holds cursor.ch = true) :
    cursor.position < cursor.bytes.length := by
  refine h.inside_of_ne fun hzero => ?_
  rw [hzero, kind.zero] at hch
  cases hch

theorem readChar (h : cursor.Sound words) (hlt : cursor.position < cursor.bytes.length) :
    cursor.readChar.Sound words := by
  refine .of_current rfl ?_ rfl h.cuts
  change cursor.readPosition ≤ cursor.bytes.length
  rw [h.ahead]
  exact hlt

theorem rest_eq (h : cursor.Sound words) (hlt : cursor.position < cursor.bytes.length) :
    cursor.lexer.rest = cursor.ch :: cursor.readChar.lexer.rest := by
  change cursor.bytes.drop cursor.position = _ :: cursor.bytes.drop cursor.readPosition
  rw [h.standing hlt, h.ahead, List.getElem_cons_drop]

theorem rest_nil (hle : cursor.bytes.length ≤ cursor.position) : cursor.lexer.rest = [] :=
  List.drop_eq_nil_of_le hle

theorem ch_eq_current (h : cursor.Sound words) : cursor.ch = cursor.lexer.current := by
  unfold Lexer.current
  rcases Nat.lt_or_ge cursor.position cursor.bytes.length with hlt | hge
  · rw [h.rest_eq hlt, List.headD_cons]
  · rw [rest_nil hge, List.headD_nil]
    exact h.atEnd (Nat.le_antisymm h.bounded hge)

theorem moveTo_rest (h : cursor.Sound words) :
    cursor.lexer.moveTo cursor.lexer.rest = cursor.lexer := by
  have hplace : cursor.bytes.length - (cursor.bytes.drop cursor.position).length =
      cursor.position := by
    have hbounded := h.bounded
    rw [List.length_drop]
    omega
  exact congrArg (fun place => Lexer.mk cursor.bytes place cursor.finished) hplace

end Sound

structure Follows (text : String) (lexer : Lexer) (words : List String)
    (cursor : Cursor) : Prop where
  sound : cursor.Sound words
  text_eq : cursor.text = text
  lexer_eq : cursor.lexer = lexer

theorem Follows.noteCut {text word : String} {lexer : Lexer} {start : Nat}
    (h : Follows text lexer words cursor) (hcut : CutOf text (start, cursor.position) word) :
    Follows text lexer (word :: words) (cursor.noteCut start) where
  sound :=
    { ahead := h.sound.ahead
      bounded := h.sound.bounded
      standing := h.sound.standing
      atEnd := h.sound.atEnd
      cuts := .cons (h.text_eq ▸ hcut) h.sound.cuts }
  text_eq := h.text_eq
  lexer_eq := h.lexer_eq

namespace Sound

theorem skipWhile (h : cursor.Sound words) (kind : ByteKind) :
    Follows cursor.text (cursor.lexer.moveTo (cursor.lexer.rest.dropWhile kind.holds)) words
      (cursor.skipWhile kind) := by
  induction cursor using Cursor.skipWhile.induct kind with
  | case1 cursor hch _ ih =>
    have hlt := h.inside hch
    rw [Cursor.skipWhile, dif_pos hch, h.rest_eq hlt, List.dropWhile_cons_of_pos hch]
    exact ih (h.readChar hlt)
  | case2 cursor hch =>
    have hstop : cursor.lexer.rest.dropWhile kind.holds = cursor.lexer.rest := by
      rcases Nat.lt_or_ge cursor.position cursor.bytes.length with hlt | hge
      · rw [h.rest_eq hlt, List.dropWhile_cons_of_neg hch]
      · rw [rest_nil hge, List.dropWhile_nil]
    rw [Cursor.skipWhile, dif_neg hch, hstop]
    exact ⟨h, rfl, h.moveTo_rest.symm⟩

theorem cutWhile (h : cursor.Sound words) (kind : ByteKind) (hch : kind.holds cursor.ch = true)
    (hascii : ∀ b, kind.holds b = true → b.toNat < 128) :
    ∃ word after,
      word = Bytes.toText (cursor.ch :: cursor.readChar.lexer.rest.takeWhile kind.holds) ∧
      cursor.cutWhile? kind = some (word, after) ∧
      Follows cursor.text
        (cursor.lexer.moveTo (cursor.readChar.lexer.rest.dropWhile kind.holds))
        (word :: words) after := by
  have hrest := h.rest_eq (h.inside hch)
  rw [← List.takeWhile_cons_of_pos hch, ← List.dropWhile_cons_of_pos hch, ← hrest]
  let front : Bytes := cursor.bytes.take cursor.position
  let word : Bytes := cursor.lexer.rest.takeWhile kind.holds
  let back : Bytes := cursor.lexer.rest.dropWhile kind.holds
  have hbytes : cursor.bytes = front ++ word ++ back := by
    rw [List.append_assoc, List.takeWhile_append_dropWhile]
    exact (List.take_append_drop _ _).symm
  have hword : ∀ b ∈ word, b.toNat < 128 := fun b hb =>
    hascii b (List.all_eq_true.1 List.all_takeWhile b hb)
  have hne : word ≠ [] := by
    simp [word, hrest, hch]
  have hafter := h.skipWhile kind
  have hstart : front.length = cursor.position := List.length_take_of_le h.bounded
  have hstop : (front ++ word).length = (cursor.skipWhile kind).position := by
    have hplace : (cursor.skipWhile kind).position = cursor.bytes.length - back.length :=
      congrArg Lexer.position hafter.lexer_eq
    rw [hplace, hbytes, @List.length_append _ (front ++ word) back, Nat.add_sub_cancel]
  have hcut := cutOf_ascii hne hword hbytes
  rw [hstart, hstop] at hcut
  refine ⟨_, (cursor.skipWhile kind).noteCut cursor.position, rfl, ?_, hafter.noteCut hcut⟩
  rw [cutWhile?, hcut.slice_eq]
  rfl

theorem follows_readChar (h : cursor.Sound words) (hlt : cursor.position < cursor.bytes.length) :
    Follows cursor.text (cursor.lexer.moveTo cursor.readChar.lexer.rest) words cursor.readChar :=
  ⟨h.readChar hlt, rfl, (h.readChar hlt).moveTo_rest.symm⟩

theorem scan (h : cursor.Sound words) (hlt : cursor.position < cursor.bytes.length) :
    ∃ after,
      cursor.scan? = some ((Token.scan cursor.ch cursor.readChar.lexer.rest).1, after) ∧
      Follows cursor.text
        (cursor.lexer.moveTo (Token.scan cursor.ch cursor.readChar.lexer.rest).2)
        ((Token.scan cursor.ch cursor.readChar.lexer.rest).1.word?.toList ++ words) after := by
  unfold scan? Token.scan
  by_cases hletter : isLetter cursor.ch = true
  · obtain ⟨word, after, rfl, hcut, hafter⟩ := h.cutWhile .letter hletter fun b => isLetter_ascii
    rw [if_pos hletter, if_pos hletter, hcut, Token.word_ofWord]
    exact ⟨after, rfl, hafter⟩
  rw [if_neg hletter, if_neg hletter]
  by_cases hdigit : isDigit cursor.ch = true
  · obtain ⟨word, after, rfl, hcut, hafter⟩ := h.cutWhile .digit hdigit fun b => isDigit_ascii
    rw [if_pos hdigit, if_pos hdigit, hcut]
    exact ⟨after, rfl, hafter⟩
  rw [if_neg hdigit, if_neg hdigit]
  -- the byte ahead is the one that the cursor stands at after one more step
  have hnext := h.readChar hlt
  split
  · next token hjoined hpeek =>
    have hlt' := hnext.inside_of_ne (by rw [show cursor.readChar.ch = 61 from hpeek]; decide)
    have hrest := hnext.rest_eq hlt'
    rw [show cursor.readChar.ch = 61 from hpeek] at hrest
    rw [hjoined, hrest]
    simp only [Token.word_joined hjoined]
    exact ⟨_, rfl, hnext.follows_readChar hlt'⟩
  · next hnot =>
    split
    · next token later hjoined hrest =>
      have hpeek : cursor.peekChar = 61 := by
        have hcurrent := hnext.ch_eq_current
        rw [Lexer.current, hrest] at hcurrent
        exact hcurrent
      exact (hnot token hjoined hpeek).elim
    · simp only [Token.word_ofByte]
      exact ⟨_, rfl, h.follows_readChar hlt⟩

end Sound

namespace Follows

variable {text : String} {lexer : Lexer}

/-! ### Calls -/

theorem ofText (text : String) : Follows text (.ofText text) [] (.ofText text) :=
  ⟨sound_ofText text, rfl, rfl⟩

theorem nextToken (h : Follows text lexer words cursor) :
    ∃ after, cursor.nextToken? = some (lexer.nextToken.1, after) ∧
      Follows text lexer.nextToken.2 (lexer.nextToken.1.word?.toList ++ words) after := by
  obtain ⟨hsound, rfl, rfl⟩ := h
  have hskip := hsound.skipWhile .blank
  have hrest : (cursor.skipWhile .blank).lexer.rest = cursor.lexer.rest.dropWhile isBlank := by
    rw [hskip.lexer_eq]
    exact Lexer.rest_moveTo ((List.dropWhile_suffix _).trans (List.drop_suffix _ _))
  unfold nextToken? Lexer.nextToken
  rcases Nat.lt_or_ge (cursor.skipWhile .blank).position (cursor.skipWhile .blank).bytes.length
    with hlt | hge
  · obtain ⟨after, hscan, hafter⟩ := hskip.sound.scan hlt
    rw [if_neg (Nat.not_le_of_lt hlt), ← hrest, hskip.sound.rest_eq hlt]
    rw [hskip.text_eq, hskip.lexer_eq] at hafter
    exact ⟨after, hscan, hafter⟩
  · have hnil := Sound.rest_nil hge
    rw [if_pos hge, ← hrest, hnil]
    refine ⟨_, rfl, hskip.sound, hskip.text_eq, ?_⟩
    rw [hskip.lexer_eq]
    rw [hrest] at hnil
    exact congrArg cursor.lexer.moveTo hnil

theorem finish (h : Follows text lexer words cursor) :
    Follows text ⟨lexer.source, lexer.position, true⟩ words { cursor with finished := true } := by
  obtain ⟨hsound, rfl, rfl⟩ := h
  exact ⟨⟨hsound.ahead, hsound.bounded, hsound.standing, hsound.atEnd, hsound.cuts⟩, rfl, rfl⟩

theorem next (h : Follows text lexer words cursor) :
    ∃ after, cursor.next? = some (lexer.next.1, after) ∧
      Follows text lexer.next.2 ((lexer.next.1.bind Token.word?).toList ++ words) after := by
  have hfinished : cursor.finished = lexer.finished := congrArg Lexer.finished h.lexer_eq
  cases hended : lexer.finished with
  | true =>
    refine ⟨cursor, ?_, ?_⟩
    · rw [next?, hfinished, hended, Lexer.next, if_pos hended]
      rfl
    · rw [Lexer.next, if_pos hended]
      exact h
  | false =>
    obtain ⟨after, htoken, hafter⟩ := h.nextToken
    rw [Lexer.next_open hended, next?, hfinished, hended, htoken]
    refine ⟨_, rfl, ?_⟩
    dsimp only
    split
    · exact hafter.finish
    · exact hafter

theorem perform (h : Follows text lexer words cursor) (call : Lexer.Call) :
    ∃ after, cursor.perform? call = some ((lexer.perform call).1, after) ∧
      Follows text (lexer.perform call).2
        (((lexer.perform call).1.bind Token.word?).toList ++ words) after := by
  cases call with
  | next => exact h.next
  | nextToken =>
    obtain ⟨after, htoken, hafter⟩ := h.nextToken
    refine ⟨after, ?_, hafter⟩
    rw [perform?, htoken]
    rfl

theorem performAll (h : Follows text lexer words cursor) (calls : List Lexer.Call) :
    ∃ after, cursor.performAll? calls = some ((lexer.performAll calls).1, after) ∧
      Follows text (lexer.performAll calls).2
        (Lexer.words (lexer.performAll calls).1 ++ words) after := by
  induction calls generalizing lexer words cursor with
  | nil => exact ⟨cursor, rfl, h⟩
  | cons call calls ih =>
    obtain ⟨next, hcall, hnext⟩ := h.perform call
    obtain ⟨after, hcalls, hafter⟩ := ih hnext
    refine ⟨after, ?_, ?_⟩
    · simp only [performAll?, hcall, hcalls, Option.bind_eq_bind, Option.bind_some]
      rfl
    · rw [Lexer.performAll, Lexer.words_cons, List.append_assoc]
      exact hafter

end Follows

end Cursor

/-- Whatever calls are made of a cursor over a text, none of them ends without an answer. The
next place is one behind the current place, which is at most the length of the text, and the
current byte is the one there, or zero at the end. Every word and number delivered has been
cut out of the text, and its cut is not empty, within the text and between characters, and
holds ASCII bytes only; there are no other cuts. The answers are those of a lexer that reads
the bytes of the text, and the cursor is left where the lexer is. -/
theorem cursor_within_text (text : String) (calls : List Lexer.Call) :
    let history := ((Lexer.ofText text).performAll calls).1
    let lexer := ((Lexer.ofText text).performAll calls).2
    ∃ cursor, (Cursor.ofText text).performAll? calls = some (history, cursor) ∧
      cursor.text = text ∧ cursor.lexer = lexer ∧
      cursor.Sound (Lexer.words history) := by
  intro history lexer
  obtain ⟨cursor, hcalls, hcursor⟩ := (Cursor.Follows.ofText text).performAll calls
  have hsound := hcursor.sound
  rw [List.append_nil] at hsound
  exact ⟨cursor, hcalls, hcursor.text_eq, hcursor.lexer_eq, hsound⟩

/-- A character of two bytes in front of a number, and a word at the end. -/
example : ((Cursor.ofText "é12 x").performAll? [.next, .next, .nextToken, .next, .next]).map
    (fun after => (after.2.cuts, after.2.position, after.2.ch)) =
      some ([(5, 6), (2, 4)], 6, 0) := by
  decide +kernel

end Monkey
