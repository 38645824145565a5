import Monkey.Syntax.Rendering
import Monkey.Proofs.Lexing
import Monkey.Proofs.TreeTokens

/-!
# Reading the canonical text of a tree

The canonical text of a well-formed tree is read as the tokens of the tree. What
follows the text matters only at its last word, so it is enough that no letter
and no digit follow.
-/

set_option autoImplicit false

namespace Monkey

/-- The first byte, if any, belongs to no token that began before it. -/
def Apart (rest : Bytes) : Prop :=
  ∀ b ∈ rest.head?, isLetter b = false ∧ isDigit b = false ∧ b ≠ 61

theorem apart_nil : Apart [] := by
  intro b hb
  cases hb

theorem apart_cons {b : UInt8} (h : isLetter b = false ∧ isDigit b = false ∧ b ≠ 61)
    (rest : Bytes) : Apart (b :: rest) := by
  intro c hc
  cases hc
  exact h

theorem Apart.letter {rest : Bytes} (h : Apart rest) : ∀ b ∈ rest.head?, isLetter b = false :=
  fun b hb => (h b hb).1

theorem Apart.digit {rest : Bytes} (h : Apart rest) : ∀ b ∈ rest.head?, isDigit b = false :=
  fun b hb => (h b hb).2.1

/-- The text is read as these tokens, whatever stands apart behind it. -/
def ReadAs (text : String) (ts : List Token) : Prop :=
  ∀ rest, Apart rest → Token.all (Bytes.ofText text ++ rest) = ts ++ Token.all rest

namespace Token

theorem all_space (rest : Bytes) : all (32 :: rest) = all rest :=
  all_blank (by decide) rest

theorem all_lparen (rest : Bytes) : all (40 :: rest) = .lparen :: all rest :=
  all_sign (by decide) (.inl rfl)

theorem all_rparen (rest : Bytes) : all (41 :: rest) = .rparen :: all rest :=
  all_sign (by decide) (.inl rfl)

theorem all_comma (rest : Bytes) : all (44 :: rest) = .comma :: all rest :=
  all_sign (by decide) (.inl rfl)

theorem all_semicolon (rest : Bytes) : all (59 :: rest) = .semicolon :: all rest :=
  all_sign (by decide) (.inl rfl)

theorem all_lbrace (rest : Bytes) : all (123 :: rest) = .lbrace :: all rest :=
  all_sign (by decide) (.inl rfl)

theorem all_rbrace (rest : Bytes) : all (125 :: rest) = .rbrace :: all rest :=
  all_sign (by decide) (.inl rfl)

theorem all_assign (rest : Bytes) : all (61 :: 32 :: rest) = .assign :: all rest := by
  rw [all_sign (by decide) (.inr (by simp)), all_space]
  rfl

theorem all_not {rest : Bytes} (h : ∀ b ∈ rest.head?, b ≠ 61) :
    all (33 :: rest) = .op .not :: all rest :=
  all_sign (by decide) (.inr h)

theorem all_minus (rest : Bytes) : all (45 :: rest) = .op .minus :: all rest :=
  all_sign (by decide) (.inl rfl)

theorem all_operator (o : Operator) (rest : Bytes) :
    all (Bytes.ofText o.text ++ 32 :: rest) = .op o :: all rest := by
  rw [← all_space rest]
  cases o with
  | not => exact all_not (by simp)
  | minus => exact all_minus _
  | equal =>
    have hblank : isBlank 61 = false := by decide
    exact all_scan hblank (61 :: 32 :: rest)
  | notEqual =>
    have hblank : isBlank 33 = false := by decide
    exact all_scan hblank (61 :: 32 :: rest)
  | plus | times | divide | less | greater => exact all_sign (by decide) (.inl rfl)

end Token

theorem readAs_keyword (word : Keyword) : ReadAs word.text [.keyword word] :=
  fun _ hrest => Token.all_keyword word hrest.letter

theorem readAs_name {name : String} (h : isName name = true) : ReadAs name [.ident name] :=
  fun _ hrest => Token.all_name h hrest.letter

theorem readAs_decimal {value : Int64} (h : 0 ≤ value) :
    ReadAs (toString value.toInt) [.int (toString value.toInt)] := by
  intro rest hrest
  rw [decimal_nonneg h]
  exact Token.all_numeral _ hrest.digit

theorem readAs_empty : ReadAs "" [] := fun _ _ => rfl

def Separates (separator : String) (t : Token) : Prop :=
  ∀ rest, Apart (Bytes.ofText separator ++ rest) ∧
    Token.all (Bytes.ofText separator ++ rest) = t :: Token.all rest

theorem separates_comma : Separates ", " .comma := by
  intro rest
  refine ⟨apart_cons (by decide) _, ?_⟩
  change Token.all (44 :: 32 :: rest) = _
  rw [Token.all_comma, Token.all_space]

theorem separates_semicolon : Separates "; " .semicolon := by
  intro rest
  refine ⟨apart_cons (by decide) _, ?_⟩
  change Token.all (59 :: 32 :: rest) = _
  rw [Token.all_semicolon, Token.all_space]

theorem readAs_joined {a b separator : String} {t : Token} {as bs : List Token}
    (hsep : Separates separator t) (ha : ReadAs a as) (hb : ReadAs b bs) :
    ReadAs (a ++ separator ++ b) (as ++ t :: bs) := by
  intro rest hrest
  obtain ⟨hapart, hread⟩ := hsep (Bytes.ofText b ++ rest)
  rw [Bytes.ofText_append, Bytes.ofText_append, List.append_assoc, List.append_assoc,
    ha _ hapart, hread, hb rest hrest, List.append_assoc, List.cons_append]

theorem readAs_params {ps : List String} (h : ps.all isName = true) :
    ReadAs (separated ", " ps) (paramTokens ps) := by
  induction ps with
  | nil => exact readAs_empty
  | cons name ps ih =>
    rw [List.all_cons, Bool.and_eq_true] at h
    cases ps with
    | nil => exact readAs_name h.1
    | cons other ps => exact readAs_joined separates_comma (readAs_name h.1) (ih h.2)

theorem all_braces {ss : Block} (h : ReadAs (Stmt.listText ss) (Stmt.listTokens ss))
    (rest : Bytes) :
    Token.all (Bytes.ofText (braces ss (Stmt.listText ss)) ++ rest) =
      .lbrace :: (Stmt.listTokens ss ++ .rbrace :: Token.all rest) := by
  cases ss with
  | nil =>
    change Token.all (123 :: 32 :: 125 :: rest) = _
    rw [Token.all_lbrace, Token.all_space, Token.all_rbrace]
    rfl
  | cons s ss =>
    have hbytes : Bytes.ofText (braces (s :: ss) (Stmt.listText (s :: ss))) ++ rest =
        123 :: 32 :: (Bytes.ofText (Stmt.listText (s :: ss)) ++ 32 :: 125 :: rest) := by
      change Bytes.ofText ("\x7b " ++ Stmt.listText (s :: ss) ++ " \x7d") ++ rest = _
      rw [Bytes.ofText_append, Bytes.ofText_append, List.append_assoc, List.append_assoc]
      rfl
    rw [hbytes, Token.all_lbrace, Token.all_space, h _ (apart_cons (by decide) _),
      Token.all_space, Token.all_rbrace]

theorem Expr.tokens_head (e : Expr) :
    ∃ t ts, e.tokens = t :: ts ∧ t ≠ .assign ∧ t ≠ .op .equal := by
  cases e with
  | cond _ _ b => cases b <;> exact ⟨_, _, rfl, by simp, by simp⟩
  | call f es =>
    obtain ⟨t, ts, htokens, hne⟩ := f.tokens_head
    exact ⟨t, ts ++ .lparen :: (Expr.listTokens es ++ [.rparen]), by simp [Expr.tokens, htokens],
      hne⟩
  | _ => exact ⟨_, _, rfl, by simp, by simp⟩

theorem head_ne_equals {bytes : Bytes} {t : Token} {ts : List Token}
    (h : Token.all bytes = t :: ts) (hassign : t ≠ .assign) (hequal : t ≠ .op .equal) :
    ∀ b ∈ bytes.head?, b ≠ 61 := by
  match bytes with
  | [] => simp
  | b :: c :: rest =>
    rintro _ ⟨⟩ rfl
    by_cases hc : c = 61
    · subst hc
      rw [Token.all_scan (by decide)] at h
      exact hequal (List.cons.inj h).1.symm
    · rw [Token.all_sign (by decide) (.inr (by simpa using hc))] at h
      exact hassign (List.cons.inj h).1.symm
  | [b] =>
    rintro _ ⟨⟩ rfl
    rw [Token.all_scan (by decide)] at h
    exact hassign (List.cons.inj h).1.symm

theorem all_prefixOperator {o : Operator} {e : Expr} (ho : o = .not ∨ o = .minus)
    (he : ReadAs e.text e.tokens) {rest : Bytes} (hrest : Apart rest) :
    Token.all (Bytes.ofText o.text ++ (Bytes.ofText e.text ++ rest)) =
      .op o :: (e.tokens ++ Token.all rest) := by
  -- No operand begins with an equals sign, so a `!` in front of it stays alone.
  have hread := he rest hrest
  obtain ⟨t, ts, htokens, hassign, hequal⟩ := e.tokens_head
  rcases ho with rfl | rfl
  · have hhead := head_ne_equals (by rw [hread, htokens]; rfl) hassign hequal
    rw [← hread]
    exact Token.all_not hhead
  · rw [← hread]
    exact Token.all_minus _

theorem all_brackets {text : String} {ts : List Token} (h : ReadAs text ts) (rest : Bytes) :
    Token.all (40 :: (Bytes.ofText text ++ 41 :: 32 :: rest)) =
      .lparen :: (ts ++ .rparen :: Token.all rest) := by
  rw [Token.all_lparen, h _ (apart_cons (by decide) _), Token.all_rparen, Token.all_space]

section

variable {e f : Expr} {a b : Block}

theorem readAs_prefixOp {o : Operator} (ho : o = .not ∨ o = .minus) (he : ReadAs e.text e.tokens) :
    ReadAs (Expr.prefixOp o e).text (Expr.prefixOp o e).tokens := by
  intro rest _
  have hbytes : Bytes.ofText (Expr.prefixOp o e).text ++ rest =
      40 :: (Bytes.ofText o.text ++ (Bytes.ofText e.text ++ 41 :: rest)) := by
    simp only [Expr.text, Bytes.ofText_append, List.append_assoc]
    rfl
  rw [hbytes, Token.all_lparen, all_prefixOperator ho he (apart_cons (by decide) _),
    Token.all_rparen]
  simp [Expr.tokens]

theorem readAs_infixOp (o : Operator) (he : ReadAs e.text e.tokens)
    (hf : ReadAs f.text f.tokens) :
    ReadAs (Expr.infixOp o e f).text (Expr.infixOp o e f).tokens := by
  intro rest _
  have hbytes : Bytes.ofText (Expr.infixOp o e f).text ++ rest =
      40 :: (Bytes.ofText e.text ++ 32 :: (Bytes.ofText o.text ++
        32 :: (Bytes.ofText f.text ++ 41 :: rest))) := by
    simp only [Expr.text, Bytes.ofText_append, List.append_assoc]
    rfl
  rw [hbytes, Token.all_lparen, he _ (apart_cons (by decide) _), Token.all_space,
    Token.all_operator, hf _ (apart_cons (by decide) _), Token.all_rparen]
  simp [Expr.tokens]

theorem readAs_cond (he : ReadAs e.text e.tokens)
    (ha : ReadAs (Stmt.listText a) (Stmt.listTokens a)) :
    ReadAs (Expr.cond e a none).text (Expr.cond e a none).tokens := by
  intro rest _
  have hbytes : Bytes.ofText (Expr.cond e a none).text ++ rest =
      Bytes.ofText Keyword.cond.text ++ 32 :: 40 :: (Bytes.ofText e.text ++ 41 :: 32 ::
        (Bytes.ofText (braces a (Stmt.listText a)) ++ rest)) := by
    simp only [Expr.text, Bytes.ofText_append, List.append_assoc]
    rfl
  rw [hbytes, readAs_keyword .cond _ (apart_cons (by decide) _), Token.all_space,
    all_brackets he, all_braces ha]
  simp [Expr.tokens]

theorem readAs_condElse (he : ReadAs e.text e.tokens)
    (ha : ReadAs (Stmt.listText a) (Stmt.listTokens a))
    (hb : ReadAs (Stmt.listText b) (Stmt.listTokens b)) :
    ReadAs (Expr.cond e a (some b)).text (Expr.cond e a (some b)).tokens := by
  intro rest _
  have hbytes : Bytes.ofText (Expr.cond e a (some b)).text ++ rest =
      Bytes.ofText Keyword.cond.text ++ 32 :: 40 :: (Bytes.ofText e.text ++ 41 :: 32 ::
        (Bytes.ofText (braces a (Stmt.listText a)) ++
          32 :: (Bytes.ofText Keyword.otherwise.text ++
            32 :: (Bytes.ofText (braces b (Stmt.listText b)) ++ rest)))) := by
    simp only [Expr.text, Bytes.ofText_append, List.append_assoc]
    rfl
  rw [hbytes, readAs_keyword .cond _ (apart_cons (by decide) _), Token.all_space,
    all_brackets he, all_braces ha, Token.all_space,
    readAs_keyword .otherwise _ (apart_cons (by decide) _), Token.all_space, all_braces hb]
  simp [Expr.tokens]

theorem readAs_fn {ps : List String} (hps : ps.all isName = true)
    (ha : ReadAs (Stmt.listText a) (Stmt.listTokens a)) :
    ReadAs (Expr.fn ps a).text (Expr.fn ps a).tokens := by
  intro rest _
  have hbytes : Bytes.ofText (Expr.fn ps a).text ++ rest =
      Bytes.ofText Keyword.fn.text ++ 40 :: (Bytes.ofText (separated ", " ps) ++ 41 :: 32 ::
        (Bytes.ofText (braces a (Stmt.listText a)) ++ rest)) := by
    simp only [Expr.text, Bytes.ofText_append, List.append_assoc]
    rfl
  rw [hbytes, readAs_keyword .fn _ (apart_cons (by decide) _),
    all_brackets (readAs_params hps), all_braces ha]
  simp [Expr.tokens]

theorem readAs_call {es : List Expr} (he : ReadAs e.text e.tokens)
    (hes : ReadAs (Expr.listText es) (Expr.listTokens es)) :
    ReadAs (Expr.call e es).text (Expr.call e es).tokens := by
  intro rest _
  have hbytes : Bytes.ofText (Expr.call e es).text ++ rest =
      Bytes.ofText e.text ++ 40 :: (Bytes.ofText (Expr.listText es) ++ 41 :: rest) := by
    simp only [Expr.text, Bytes.ofText_append, List.append_assoc]
    rfl
  rw [hbytes, he _ (apart_cons (by decide) _), Token.all_lparen,
    hes _ (apart_cons (by decide) _), Token.all_rparen]
  simp [Expr.tokens]

theorem readAs_bind {name : String} (hname : isName name = true) (he : ReadAs e.text e.tokens) :
    ReadAs (Stmt.bind name e).text (Stmt.bind name e).tokens := by
  intro rest hrest
  have hbytes : Bytes.ofText (Stmt.bind name e).text ++ rest =
      Bytes.ofText Keyword.bind.text ++ 32 :: (Bytes.ofText name ++
        32 :: 61 :: 32 :: (Bytes.ofText e.text ++ rest)) := by
    simp only [Stmt.text, Bytes.ofText_append, List.append_assoc]
    rfl
  rw [hbytes, readAs_keyword .bind _ (apart_cons (by decide) _), Token.all_space,
    readAs_name hname _ (apart_cons (by decide) _), Token.all_space, Token.all_assign,
    he rest hrest]
  simp [Stmt.tokens]

theorem readAs_ret (he : ReadAs e.text e.tokens) :
    ReadAs (Stmt.ret (some e)).text (Stmt.ret (some e)).tokens := by
  intro rest hrest
  have hbytes : Bytes.ofText (Stmt.ret (some e)).text ++ rest =
      Bytes.ofText Keyword.ret.text ++ 32 :: (Bytes.ofText e.text ++ rest) := by
    simp only [Stmt.text, Bytes.ofText_append, List.append_assoc]
    rfl
  rw [hbytes, readAs_keyword .ret _ (apart_cons (by decide) _), Token.all_space, he rest hrest]
  simp [Stmt.tokens]

end

mutual

theorem Expr.readAs_text : (e : Expr) → e.wellFormed = true → ReadAs e.text e.tokens
  | .ident name, h => readAs_name h
  | .int value, h => readAs_decimal (by simpa [Expr.wellFormed] using h)
  | .bool value, _ => readAs_keyword (.bool value)
  | .prefixOp o e, h => by
    simp only [Expr.wellFormed, Bool.and_eq_true, Bool.or_eq_true, beq_iff_eq] at h
    exact readAs_prefixOp h.1 (Expr.readAs_text e h.2)
  | .infixOp o a b, h => by
    simp only [Expr.wellFormed, Bool.and_eq_true] at h
    exact readAs_infixOp o (Expr.readAs_text a h.1.2) (Expr.readAs_text b h.2)
  | .cond c a none, h => by
    simp only [Expr.wellFormed, Bool.and_eq_true] at h
    exact readAs_cond (Expr.readAs_text c h.1) (Stmt.readAs_listText a h.2)
  | .cond c a (some b), h => by
    simp only [Expr.wellFormed, Bool.and_eq_true] at h
    exact readAs_condElse (Expr.readAs_text c h.1.1) (Stmt.readAs_listText a h.1.2)
      (Stmt.readAs_listText b h.2)
  | .fn ps body, h => by
    simp only [Expr.wellFormed, Bool.and_eq_true] at h
    exact readAs_fn h.1 (Stmt.readAs_listText body h.2)
  | .call f es, h => by
    simp only [Expr.wellFormed, Bool.and_eq_true] at h
    exact readAs_call (Expr.readAs_text f h.1) (Expr.readAs_listText es h.2)

theorem Expr.readAs_listText : (es : List Expr) → Expr.allWellFormed es = true →
    ReadAs (Expr.listText es) (Expr.listTokens es)
  | [], _ => readAs_empty
  | [e], h => by
    rw [Expr.allWellFormed, Bool.and_eq_true] at h
    exact Expr.readAs_text e h.1
  | e :: f :: es, h => by
    rw [Expr.allWellFormed, Bool.and_eq_true] at h
    exact readAs_joined separates_comma (Expr.readAs_text e h.1)
      (Expr.readAs_listText (f :: es) h.2)

theorem Stmt.readAs_text : (s : Stmt) → s.wellFormed = true → ReadAs s.text s.tokens
  | .bind name e, h => by
    simp only [Stmt.wellFormed, Bool.and_eq_true] at h
    exact readAs_bind h.1 (Expr.readAs_text e h.2)
  | .ret none, _ => readAs_keyword .ret
  | .ret (some e), h => readAs_ret (Expr.readAs_text e h)
  | .expr e, h => Expr.readAs_text e h
  | .block body, h => by cases h

theorem Stmt.readAs_listText : (ss : List Stmt) → Stmt.allWellFormed ss = true →
    ReadAs (Stmt.listText ss) (Stmt.listTokens ss)
  | [], _ => readAs_empty
  | [s], h => by
    rw [Stmt.allWellFormed, Bool.and_eq_true] at h
    exact Stmt.readAs_text s h.1
  | s :: t :: ss, h => by
    rw [Stmt.allWellFormed, Bool.and_eq_true] at h
    exact readAs_joined separates_semicolon (Stmt.readAs_text s h.1)
      (Stmt.readAs_listText (t :: ss) h.2)

end

/-- The canonical text of a well-formed program is read as its tokens. -/
theorem all_text {program : Program} (h : program.WellFormed) :
    Token.all (Bytes.ofText program.text) = Stmt.listTokens program := by
  have hread := Stmt.readAs_listText program h [] apart_nil
  rwa [List.append_nil, Token.all_nil, List.append_nil] at hread

end Monkey
