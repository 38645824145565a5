import Monkey.Syntax.WellFormed
import Monkey.Token.Lexer

/-!
# Tokens of joined texts

What reading does at the front of a source whose first bytes are known: blanks
are passed over, a sign is a token whatever follows it, and words and digit runs
are whole as soon as the byte behind them cannot belong to them.
-/

set_option autoImplicit false

namespace Monkey

namespace Bytes

theorem ofText_append (a b : String) : ofText (a ++ b) = ofText a ++ ofText b := by
  simp [ofText]

theorem ofText_ofList (cs : List Char) :
    ofText (String.ofList cs) = cs.flatMap String.utf8EncodeChar := by
  simp [ofText]

theorem encode_ascii {c : Char} (h : c.val.toNat < 128) :
    String.utf8EncodeChar c = [c.val.toUInt8] := by
  unfold String.utf8EncodeChar
  rw [if_pos (by omega)]
  rfl

theorem val_ofUInt8 (byte : UInt8) : (Char.ofUInt8 byte).val = byte.toUInt32 := rfl

theorem decode_ascii {c : Char} (h : c.val.toNat < 128) : Char.ofUInt8 c.val.toUInt8 = c := by
  apply Char.ext
  apply UInt32.toNat_inj.1
  simp only [val_ofUInt8, UInt8.toNat_toUInt32, UInt32.toNat_toUInt8]
  omega

theorem ofText_ascii {cs : List Char} (h : ∀ c ∈ cs, c.val.toNat < 128) :
    ofText (String.ofList cs) = cs.map (fun c => c.val.toUInt8) := by
  rw [ofText_ofList]
  induction cs with
  | nil => rfl
  | cons c cs ih =>
    have hc := encode_ascii (h c (by simp))
    rw [List.flatMap_cons, hc, ih (fun d hd => h d (by simp [hd]))]
    rfl

theorem toText_ascii {cs : List Char} (h : ∀ c ∈ cs, c.val.toNat < 128) :
    toText (cs.map (fun c => c.val.toUInt8)) = String.ofList cs := by
  unfold toText
  rw [List.map_map]
  congr 1
  calc cs.map (Char.ofUInt8 ∘ fun c => c.val.toUInt8) = cs.map id :=
        List.map_congr_left (fun c hc => decode_ascii (h c hc))
    _ = cs := List.map_id cs

end Bytes

theorem takeWhile_run {p : UInt8 → Bool} {word rest : Bytes} (hword : ∀ b ∈ word, p b = true)
    (hrest : ∀ b ∈ rest.head?, p b = false) : (word ++ rest).takeWhile p = word := by
  rw [List.takeWhile_append_of_pos hword]
  cases rest with
  | nil => simp
  | cons b rest => simp [hrest b rfl]

theorem dropWhile_run {p : UInt8 → Bool} {word rest : Bytes} (hword : ∀ b ∈ word, p b = true)
    (hrest : ∀ b ∈ rest.head?, p b = false) : (word ++ rest).dropWhile p = rest := by
  rw [List.dropWhile_append_of_pos hword]
  cases rest with
  | nil => rfl
  | cons b rest => simp [hrest b rfl]

theorem takeWhile_run_all {p : UInt8 → Bool} {byte : UInt8} (h : p byte = true) (rest : Bytes) :
    ∀ b ∈ byte :: rest.takeWhile p, p b = true := by
  intro b hb
  rcases List.mem_cons.1 hb with rfl | hb
  · exact h
  · exact List.all_eq_true.1 List.all_takeWhile b hb

namespace Token

theorem all_eq (bytes : Bytes) :
    all bytes = match bytes.dropWhile isBlank with
      | [] => []
      | byte :: rest => (scan byte rest).1 :: all (scan byte rest).2 := by
  rw [all]
  split <;> next h => simp [h]

theorem all_nil : all [] = [] := all_eq []

theorem all_blank {byte : UInt8} (h : isBlank byte = true) (rest : Bytes) :
    all (byte :: rest) = all rest := by
  rw [all_eq, all_eq rest]
  simp [h]

theorem all_scan {byte : UInt8} (h : isBlank byte = false) (rest : Bytes) :
    all (byte :: rest) = (scan byte rest).1 :: all (scan byte rest).2 := by
  rw [all_eq]
  simp [h]

theorem isBlank_of_letter {byte : UInt8} (h : isLetter byte = true) : isBlank byte = false := by
  simp only [isLetter, isBlank, Bool.or_eq_true, Bool.and_eq_true, decide_eq_true_eq,
    beq_iff_eq, UInt8.le_iff_toNat_le, ← UInt8.toNat_inj, Bool.or_eq_false_iff,
    beq_eq_false_iff_ne, ne_eq] at *
  simp only [UInt8.reduceToNat] at *
  omega

theorem isBlank_of_digit {byte : UInt8} (h : isDigit byte = true) :
    isBlank byte = false ∧ isLetter byte = false := by
  simp only [isDigit, isLetter, isBlank, Bool.and_eq_true, decide_eq_true_eq,
    UInt8.le_iff_toNat_le, ← UInt8.toNat_inj, Bool.or_eq_false_iff, Bool.and_eq_false_iff,
    decide_eq_false_iff_not, beq_eq_false_iff_ne, ne_eq] at *
  simp only [UInt8.reduceToNat] at *
  omega

theorem all_word {word rest : Bytes} (hne : word ≠ []) (hword : ∀ b ∈ word, isLetter b = true)
    (hrest : ∀ b ∈ rest.head?, isLetter b = false) :
    all (word ++ rest) = ofWord word.toText :: all rest := by
  cases word with
  | nil => exact absurd rfl hne
  | cons b word =>
    have hb := hword b (by simp)
    have htail : ∀ c ∈ word, isLetter c = true := fun c hc => hword c (by simp [hc])
    rw [List.cons_append, all_scan (isBlank_of_letter hb)]
    simp only [scan, hb, if_true, takeWhile_run htail hrest, dropWhile_run htail hrest]

theorem all_digits {digits rest : Bytes} (hne : digits ≠ [])
    (hdigits : ∀ b ∈ digits, isDigit b = true) (hrest : ∀ b ∈ rest.head?, isDigit b = false) :
    all (digits ++ rest) = .int digits.toText :: all rest := by
  cases digits with
  | nil => exact absurd rfl hne
  | cons b digits =>
    have hb := hdigits b (by simp)
    have htail : ∀ c ∈ digits, isDigit c = true := fun c hc => hdigits c (by simp [hc])
    obtain ⟨hblank, hletter⟩ := isBlank_of_digit hb
    rw [List.cons_append, all_scan hblank]
    simp only [scan, hletter, hb, if_true, takeWhile_run htail hrest,
      dropWhile_run htail hrest]
    rfl

theorem all_sign {byte : UInt8} {rest : Bytes}
    (h : isBlank byte = false ∧ isLetter byte = false ∧ isDigit byte = false)
    (hjoin : (ofByte byte).joined? = none ∨ ∀ b ∈ rest.head?, b ≠ 61) :
    all (byte :: rest) = ofByte byte :: all rest := by
  obtain ⟨hblank, hletter, hdigit⟩ := h
  have hscan : scan byte rest = (ofByte byte, rest) := by
    simp only [scan, hletter, hdigit, Bool.false_eq_true, if_false]
    split
    · next token later hj =>
      rcases hjoin with hnone | hne
      · rw [hnone] at hj
        cases hj
      · exact absurd rfl (hne 61 rfl)
    · rfl
  rw [all_scan hblank, hscan]

end Token

theorem isNameChar_letter {c : Char} (h : isNameChar c = true) :
    c.val.toNat < 128 ∧ isLetter c.val.toUInt8 = true := by
  simp only [isNameChar, isLetter, Bool.or_eq_true, Bool.and_eq_true, decide_eq_true_eq,
    beq_iff_eq, Char.le_def, UInt32.le_iff_toNat_le, UInt8.le_iff_toNat_le, Char.ext_iff,
    ← UInt32.toNat_inj, ← UInt8.toNat_inj, UInt32.toNat_toUInt8] at *
  simp only [Char.reduceVal, UInt32.reduceToNat, UInt8.reduceToNat] at *
  omega

theorem isDigit_digit {c : Char} (h : c.isDigit = true) :
    c.val.toNat < 128 ∧ isDigit c.val.toUInt8 = true := by
  simp only [Char.isDigit, isDigit, Bool.and_eq_true, decide_eq_true_eq,
    ge_iff_le, UInt32.le_iff_toNat_le, UInt8.le_iff_toNat_le, UInt32.toNat_toUInt8] at *
  simp only [Char.reduceVal, UInt32.reduceToNat, UInt8.reduceToNat] at *
  omega

namespace Token

theorem all_letters {cs : List Char} {rest : Bytes} (hne : cs ≠ [])
    (hcs : ∀ c ∈ cs, isNameChar c = true) (hrest : ∀ b ∈ rest.head?, isLetter b = false) :
    all (Bytes.ofText (String.ofList cs) ++ rest) = ofWord (String.ofList cs) :: all rest := by
  have hascii : ∀ c ∈ cs, c.val.toNat < 128 := fun c hc => (isNameChar_letter (hcs c hc)).1
  have hletters : ∀ b ∈ cs.map (fun c => c.val.toUInt8), isLetter b = true := by
    intro b hb
    obtain ⟨c, hc, rfl⟩ := List.mem_map.1 hb
    exact (isNameChar_letter (hcs c hc)).2
  rw [Bytes.ofText_ascii hascii, all_word (by simpa using hne) hletters hrest,
    Bytes.toText_ascii hascii]

theorem all_name {name : String} {rest : Bytes} (h : isName name = true)
    (hrest : ∀ b ∈ rest.head?, isLetter b = false) :
    all (Bytes.ofText name ++ rest) = .ident name :: all rest := by
  simp only [isName, Bool.and_eq_true, List.all_eq_true, Option.isNone_iff_eq_none] at h
  obtain ⟨⟨hne, hchars⟩, hword⟩ := h
  have hlist : name.toList ≠ [] := by simpa using hne
  have hread := all_letters hlist hchars hrest
  rw [String.ofList_toList] at hread
  rw [hread, ofWord, hword]

theorem all_keyword (word : Keyword) {rest : Bytes}
    (hrest : ∀ b ∈ rest.head?, isLetter b = false) :
    all (Bytes.ofText word.text ++ rest) = .keyword word :: all rest := by
  have hne : word.text.toList.isEmpty = false := by
    cases word with
    | bool value => cases value <;> rfl
    | _ => rfl
  have hchars : word.text.toList.all isNameChar = true := by
    cases word with
    | bool value => cases value <;> rfl
    | _ => rfl
  have hread := all_letters (List.isEmpty_eq_false_iff.1 hne) (List.all_eq_true.1 hchars) hrest
  rw [String.ofList_toList] at hread
  rw [hread, ofWord, Keyword.ofText_text]

theorem all_numeral (n : Nat) {rest : Bytes} (hrest : ∀ b ∈ rest.head?, isDigit b = false) :
    all (Bytes.ofText n.repr ++ rest) = .int n.repr :: all rest := by
  have hchars : ∀ c ∈ Nat.toDigits 10 n, c.val.toNat < 128 ∧ isDigit c.val.toUInt8 = true :=
    fun c hc => isDigit_digit (Nat.isDigit_of_mem_toDigits (by decide) (by decide) hc)
  have hascii : ∀ c ∈ Nat.toDigits 10 n, c.val.toNat < 128 := fun c hc => (hchars c hc).1
  have hdigits : ∀ b ∈ (Nat.toDigits 10 n).map (fun c => c.val.toUInt8), isDigit b = true := by
    intro b hb
    obtain ⟨c, hc, rfl⟩ := List.mem_map.1 hb
    exact (hchars c hc).2
  rw [Nat.repr_eq_ofList_toDigits, Bytes.ofText_ascii hascii,
    all_digits (by simp [Nat.toDigits_ne_nil]) hdigits hrest, Bytes.toText_ascii hascii]

end Token

end Monkey
