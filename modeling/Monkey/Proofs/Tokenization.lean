import Monkey.Token.Spelling
import Monkey.Proofs.Lexing

/-!
# Reading is lossless

A source can be cut into blanks and spellings in one way only, if no spelling may
stand in front of a byte that would still belong to it, and reading finds that
one. So every byte is a blank or part of the spelling of exactly one token. The
stream of a lexer delivers the tokens of this cut one by one, and then the end
of input once.
-/

set_option autoImplicit false

namespace Monkey

namespace Bytes

theorem encode_ofUInt8 {byte : UInt8} (h : byte.toNat < 128) :
    String.utf8EncodeChar (Char.ofUInt8 byte) = [byte] := by
  rw [encode_ascii (by simpa [val_ofUInt8] using h), val_ofUInt8]
  simp

theorem ofText_toText {bytes : Bytes} (h : ∀ b ∈ bytes, b.toNat < 128) :
    ofText bytes.toText = bytes := by
  rw [toText, ofText_ofList]
  induction bytes with
  | nil => rfl
  | cons b bytes ih =>
    rw [List.map_cons, List.flatMap_cons, encode_ofUInt8 (h b (by simp)),
      ih fun c hc => h c (by simp [hc])]
    rfl

end Bytes

theorem isLetter_ascii {byte : UInt8} (h : isLetter byte = true) : byte.toNat < 128 := by
  simp only [isLetter, Bool.or_eq_true, Bool.and_eq_true, decide_eq_true_eq, beq_iff_eq,
    UInt8.le_iff_toNat_le, ← UInt8.toNat_inj] at h
  simp only [UInt8.reduceToNat] at h
  omega

theorem isDigit_ascii {byte : UInt8} (h : isDigit byte = true) : byte.toNat < 128 := by
  simp only [isDigit, Bool.and_eq_true, decide_eq_true_eq, UInt8.le_iff_toNat_le] at h
  simp only [UInt8.reduceToNat] at h
  omega

namespace Token

/-! ### What is read is a spelling -/

theorem sign_cases {byte : UInt8} (h : isSign byte = true) :
    isBlank byte = false ∧ isLetter byte = false ∧ isDigit byte = false ∧
      (ofByte byte).SpelledBy [byte] := by
  simp only [isSign, List.contains_eq_mem, List.mem_cons, List.not_mem_nil, or_false,
    decide_eq_true_eq] at h
  rcases h with rfl | rfl | rfl | rfl | rfl | rfl | rfl | rfl | rfl | rfl | rfl | rfl | rfl |
      rfl <;>
    exact ⟨rfl, rfl, rfl, rfl⟩

theorem ofByte_illegal {byte : UInt8} (h : isSign byte = false) : ofByte byte = .illegal byte := by
  have hbyte : (Char.ofUInt8 byte).val.toUInt8 = byte := by simp [Bytes.val_ofUInt8]
  unfold ofByte
  split
  case h_15 => rfl
  all_goals
    -- the character of a sign gives the byte away
    next hchar =>
    rw [← hbyte, hchar] at h
    cases h

theorem ofByte_spelled {byte : UInt8} (hblank : isBlank byte = false)
    (hletter : isLetter byte = false) (hdigit : isDigit byte = false) :
    (ofByte byte).SpelledBy [byte] := by
  cases hsign : isSign byte with
  | true => exact (sign_cases hsign).2.2.2
  | false =>
    rw [ofByte_illegal hsign]
    exact ⟨rfl, hblank, hletter, hdigit, hsign⟩

theorem ofByte_absorbs (byte next : UInt8) :
    (ofByte byte).absorbs next = ((ofByte byte).joined?.isSome && next == 61) := by
  unfold ofByte
  split <;> rfl

theorem joined_spelled {byte : UInt8} {t : Token} (h : (ofByte byte).joined? = some t) :
    t.SpelledBy [byte, 61] ∧ ∀ next, t.absorbs next = false := by
  have hsign : isSign byte = true := by
    rw [← Bool.not_eq_false]
    intro hsign
    rw [ofByte_illegal hsign] at h
    cases h
  simp only [isSign, List.contains_eq_mem, List.mem_cons, List.not_mem_nil, or_false,
    decide_eq_true_eq] at hsign
  rcases hsign with rfl | rfl | rfl | rfl | rfl | rfl | rfl | rfl | rfl | rfl | rfl | rfl | rfl |
    rfl <;> cases h <;> exact ⟨rfl, fun _ => rfl⟩

theorem ofWord_spelled {bytes : Bytes} (hne : bytes ≠ [])
    (hletters : ∀ b ∈ bytes, isLetter b = true) :
    (ofWord bytes.toText).SpelledBy bytes ∧
      ∀ next, (ofWord bytes.toText).absorbs next = isLetter next := by
  unfold ofWord
  split
  · next word hword =>
    refine ⟨?_, fun _ => rfl⟩
    change bytes = Bytes.ofText word.text
    rw [Keyword.text_of_ofText hword,
      Bytes.ofText_toText fun b hb => isLetter_ascii (hletters b hb)]
  · next hword => exact ⟨⟨hne, hletters, rfl, hword⟩, fun _ => rfl⟩

theorem head_dropWhile {p : UInt8 → Bool} (bytes : Bytes) :
    ∀ b ∈ (bytes.dropWhile p).head?, p b = false := by
  intro b hb
  have hhead := List.head?_dropWhile_not p bytes
  rw [Option.mem_def.1 hb] at hhead
  exact hhead

theorem scan_spelled {byte : UInt8} (h : isBlank byte = false) (rest : Bytes) :
    ∃ spelling, byte :: rest = spelling ++ (scan byte rest).2 ∧
      (scan byte rest).1.SpelledBy spelling ∧
      ∀ b ∈ (scan byte rest).2.head?, (scan byte rest).1.absorbs b = false := by
  unfold scan
  split
  · next hletter =>
    obtain ⟨hspelled, habsorbs⟩ := ofWord_spelled (List.cons_ne_nil _ _)
      (takeWhile_run_all hletter rest)
    refine ⟨byte :: rest.takeWhile isLetter, by simp, hspelled, fun b hb => ?_⟩
    rw [habsorbs]
    exact head_dropWhile rest b hb
  · next hletter =>
    split
    · next hdigit =>
      have hdigits := takeWhile_run_all hdigit rest
      exact ⟨byte :: rest.takeWhile isDigit, by simp, ⟨List.cons_ne_nil _ _, hdigits, rfl⟩,
        head_dropWhile rest⟩
    · next hdigit =>
      split
      · next token later hjoined =>
        obtain ⟨hspelled, habsorbs⟩ := joined_spelled hjoined
        exact ⟨[byte, 61], rfl, hspelled, fun b _ => habsorbs b⟩
      · next hnot =>
        refine ⟨[byte], rfl, ofByte_spelled h (by simpa using hletter) (by simpa using hdigit), ?_⟩
        intro b hb
        rw [ofByte_absorbs, Bool.and_eq_false_iff]
        cases hjoined : (ofByte byte).joined? with
        | none => exact .inl rfl
        | some token =>
          obtain ⟨later, rfl⟩ := List.head?_eq_some_iff.1 hb
          right
          rw [beq_eq_false_iff_ne]
          rintro rfl
          exact hnot token later hjoined rfl

theorem all_splits (bytes : Bytes) : Splits bytes (all bytes) := by
  induction h : bytes.length using Nat.strongRecOn generalizing bytes with
  | ind n ih =>
    have hblanks : ∀ b ∈ bytes.takeWhile isBlank, isBlank b = true :=
      List.all_eq_true.1 List.all_takeWhile
    have hcut := List.takeWhile_append_dropWhile (p := isBlank) (l := bytes)
    rw [all_eq]
    split
    · next hdrop =>
      rw [hdrop, List.append_nil] at hcut
      exact .done bytes (hcut ▸ hblanks)
    · next byte rest hdrop =>
      have hblank : isBlank byte = false := head_dropWhile bytes byte (by rw [hdrop]; rfl)
      obtain ⟨spelling, hbytes, hspelled, hend⟩ := scan_spelled hblank rest
      rw [← hcut, hdrop, hbytes, ← List.append_assoc]
      exact .token _ spelling _ _ _ hblanks hspelled hend (ih _ (h ▸ scan_length_lt hdrop) _ rfl)

/-! ### A spelling is read -/

theorem all_blanks {blanks : Bytes} (h : ∀ b ∈ blanks, isBlank b = true) (rest : Bytes) :
    all (blanks ++ rest) = all rest := by
  induction blanks with
  | nil => rfl
  | cons b blanks ih =>
    rw [List.cons_append, all_blank (h b (by simp)), ih fun c hc => h c (by simp [hc])]

theorem all_spelled {t : Token} {spelling rest : Bytes} (h : t.SpelledBy spelling)
    (hend : ∀ b ∈ rest.head?, t.absorbs b = false) :
    all (spelling ++ rest) = t :: all rest := by
  cases t with
  | eof => exact h.elim
  | illegal byte =>
    obtain ⟨rfl, hblank, hletter, hdigit, hsign⟩ := h
    have hbyte := ofByte_illegal hsign
    have hread : all (byte :: rest) = ofByte byte :: all rest :=
      all_sign ⟨hblank, hletter, hdigit⟩ (.inl (by rw [hbyte]; rfl))
    rwa [hbyte] at hread
  | ident name =>
    obtain ⟨hne, hletters, rfl, hword⟩ := h
    rw [all_word hne hletters hend, ofWord, hword]
  | int digits =>
    obtain ⟨hne, hdigits, rfl⟩ := h
    exact all_digits hne hdigits hend
  | keyword word =>
    obtain rfl : spelling = Bytes.ofText word.text := h
    exact all_keyword word hend
  | assign =>
    obtain rfl : spelling = [61] := h
    exact all_sign (by decide) (.inr fun b hb => by simpa [absorbs] using hend b hb)
  | op o =>
    obtain rfl : spelling = Bytes.ofText o.text := h
    cases o with
    | not => exact all_sign (by decide) (.inr fun b hb => by simpa [absorbs] using hend b hb)
    | equal | notEqual => exact all_scan (by decide) (61 :: rest)
    | minus | plus | times | divide | less | greater => exact all_sign (by decide) (.inl rfl)
  | comma | semicolon | lparen | rparen | lbrace | rbrace =>
    cases h
    exact all_sign (by decide) (.inl rfl)

end Token

namespace Splits

theorem all_eq {bytes : Bytes} {ts : List Token} (h : Splits bytes ts) : Token.all bytes = ts := by
  induction h with
  | done blanks h => simpa [Token.all_nil] using Token.all_blanks h []
  | token blanks spelling rest t ts hblanks hspelling hend _ ih =>
    rw [List.append_assoc, Token.all_blanks hblanks, Token.all_spelled hspelling hend, ih]

theorem eof_notMem {bytes : Bytes} {ts : List Token} (h : Splits bytes ts) : .eof ∉ ts := by
  induction h with
  | done => simp
  | token blanks spelling rest t ts hblanks hspelling hend _ ih =>
    rintro (_ | ⟨_, hmem⟩)
    · exact hspelling
    · exact ih hmem

end Splits

namespace Lexer

/-- The stream delivers these tokens one after another, and then ends. -/
inductive Delivers : Lexer → List Token → Prop where
  | ended (lexer : Lexer) (h : lexer.next.1 = none) : Delivers lexer []
  | token (lexer : Lexer) (t : Token) (ts : List Token) (h : lexer.next.1 = some t)
      (hrest : Delivers lexer.next.2 ts) : Delivers lexer (t :: ts)

theorem rest_moveTo {lexer : Lexer} {bytes : Bytes} (h : bytes <:+ lexer.source) :
    (lexer.moveTo bytes).rest = bytes :=
  (List.suffix_iff_eq_drop.1 h).symm

theorem nextToken_nil {lexer : Lexer} (h : Token.all lexer.rest = []) :
    lexer.nextToken = (.eof, lexer.moveTo []) := by
  rw [Token.all_eq] at h
  unfold nextToken
  cases hdrop : lexer.rest.dropWhile isBlank with
  | nil => rfl
  | cons byte rest =>
    rw [hdrop] at h
    cases h

theorem nextToken_cons {lexer : Lexer} {t : Token} {ts : List Token}
    (h : Token.all lexer.rest = t :: ts) :
    lexer.nextToken.1 = t ∧ Token.all lexer.nextToken.2.rest = ts := by
  rw [Token.all_eq] at h
  unfold nextToken
  cases hdrop : lexer.rest.dropWhile isBlank with
  | nil =>
    rw [hdrop] at h
    cases h
  | cons byte rest =>
    have hblank : isBlank byte = false := Token.head_dropWhile lexer.rest byte (by rw [hdrop]; rfl)
    obtain ⟨spelling, hbytes, _⟩ := Token.scan_spelled hblank rest
    have hleft : (Token.scan byte rest).2 <:+ lexer.rest.dropWhile isBlank :=
      ⟨spelling, by rw [hdrop, hbytes]⟩
    have hsuffix : (Token.scan byte rest).2 <:+ lexer.source :=
      (hleft.trans (List.dropWhile_suffix _)).trans (List.drop_suffix _ _)
    rw [hdrop] at h
    cases h
    exact ⟨rfl, by rw [rest_moveTo hsuffix]⟩

theorem nextToken_eq (lexer : Lexer) :
    lexer.nextToken.1 = (Token.all lexer.rest).headD .eof ∧
      Token.all lexer.nextToken.2.rest = (Token.all lexer.rest).tail := by
  cases hts : Token.all lexer.rest with
  | nil =>
    rw [nextToken_nil hts, rest_moveTo (List.nil_suffix), Token.all_nil]
    exact ⟨rfl, rfl⟩
  | cons t ts => exact nextToken_cons hts

theorem finished_nextToken (lexer : Lexer) : lexer.nextToken.2.finished = lexer.finished := by
  unfold nextToken
  split <;> rfl

theorem source_nextToken (lexer : Lexer) : lexer.nextToken.2.source = lexer.source := by
  unfold nextToken
  split <;> rfl

theorem next_open {lexer : Lexer} (h : lexer.finished = false) :
    lexer.next = (some lexer.nextToken.1,
      if lexer.nextToken.1 = .eof then
        ⟨lexer.nextToken.2.source, lexer.nextToken.2.position, true⟩
      else lexer.nextToken.2) := by
  unfold next
  rw [if_neg (by simp [h])]
  rcases lexer.nextToken with ⟨t, after⟩
  cases t <;> rfl

theorem token_ne_eof {lexer : Lexer} {t : Token} {ts : List Token}
    (h : Token.all lexer.rest = t :: ts) : t ≠ .eof := by
  rintro rfl
  exact (Token.all_splits lexer.rest).eof_notMem (by simp [h])

theorem next_nil {lexer : Lexer} (h : lexer.finished = false) (hts : Token.all lexer.rest = []) :
    lexer.next = (some .eof, ⟨lexer.source, lexer.source.length, true⟩) := by
  rw [next_open h, nextToken_nil hts]
  rfl

theorem next_cons {lexer : Lexer} {t : Token} {ts : List Token} (h : lexer.finished = false)
    (hts : Token.all lexer.rest = t :: ts) : lexer.next = (some t, lexer.nextToken.2) := by
  rw [next_open h, (nextToken_cons hts).1, if_neg (token_ne_eof hts)]

theorem delivers_all {lexer : Lexer} (h : lexer.finished = false) :
    lexer.Delivers (Token.all lexer.rest ++ [.eof]) := by
  induction hts : Token.all lexer.rest generalizing lexer with
  | nil =>
    have hlast := next_nil h hts
    refine .token _ _ _ (by rw [hlast]) (.ended _ ?_)
    rw [hlast]
    rfl
  | cons t ts ih =>
    have hnext := next_cons h hts
    refine .token _ _ _ (by rw [hnext]) ?_
    rw [hnext]
    exact ih (lexer.finished_nextToken.trans h) (nextToken_cons hts).2

theorem Delivers.unique {lexer : Lexer} {ts us : List Token} (h : lexer.Delivers ts)
    (h' : lexer.Delivers us) : ts = us := by
  induction h generalizing us with
  | ended lexer hnone =>
    cases h' with
    | ended => rfl
    | token _ _ _ hsome =>
      rw [hnone] at hsome
      cases hsome
  | token lexer t ts hsome _ ih =>
    cases h' with
    | ended _ hnone =>
      rw [hsome] at hnone
      cases hnone
    | token _ u us hsome' hrest =>
      rw [hsome] at hsome'
      cases hsome'
      rw [ih hrest]

theorem drain_delivers (lexer : Lexer) : lexer.Delivers lexer.drain.1 := by
  unfold drain
  split
  · next hfinished => exact .ended _ (by rw [next, if_pos hfinished])
  · next hopen => exact delivers_all (by simpa using hopen)

end Lexer

theorem all_eq_iff_splits (bytes : Bytes) (ts : List Token) :
    Token.all bytes = ts ↔ Splits bytes ts :=
  ⟨fun h => h ▸ Token.all_splits bytes, Splits.all_eq⟩

/-- A lexer delivers some tokens and then the end of input exactly if its source
can be cut into blanks and the spellings of these tokens, none of which goes on
into the byte behind it. There are such tokens for every source, and no others. -/
theorem delivers_iff_splits (source : Bytes) :
    (∀ ts, (Lexer.ofBytes source).Delivers (ts ++ [.eof]) ↔ .eof ∉ ts ∧ Splits source ts) ∧
      ∃ ts, Splits source ts ∧ ∀ us, Splits source us → us = ts := by
  have hall : (Lexer.ofBytes source).Delivers (Token.all source ++ [.eof]) :=
    Lexer.drain_delivers (Lexer.ofBytes source)
  refine ⟨fun ts => ⟨fun h => ?_, fun h => ?_⟩, Token.all source, Token.all_splits source,
    fun us h => h.all_eq.symm⟩
  · have hts : Splits source ts :=
      (all_eq_iff_splits source ts).1 (List.append_cancel_right (hall.unique h))
    exact ⟨hts.eof_notMem, hts⟩
  · rw [← h.2.all_eq]
    exact hall

end Monkey
