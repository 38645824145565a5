import Monkey.Syntax.WellFormed
import Monkey.Syntax.Grammar

/-!
# The tokens of a tree

Every operation stands in parentheses, so the tokens of a tree leave the grammar
no choice but the tree itself: a well-formed expression is derived wherever it
may stand, a statement wherever its end can be seen.
-/

set_option autoImplicit false

namespace Monkey

mutual

def Expr.tokens : Expr → List Token
  | .ident name => [.ident name]
  | .int value => [.int (toString value.toInt)]
  | .bool value => [.keyword (.bool value)]
  | .prefixOp o e => .lparen :: (.op o :: e.tokens) ++ [.rparen]
  | .infixOp o a b => .lparen :: (a.tokens ++ .op o :: b.tokens) ++ [.rparen]
  | .cond c a none => .keyword .cond :: .lparen :: c.tokens ++
      .rparen :: .lbrace :: (Stmt.listTokens a ++ [.rbrace])
  | .cond c a (some b) => .keyword .cond :: .lparen :: c.tokens ++
      .rparen :: .lbrace :: (Stmt.listTokens a ++ [.rbrace]) ++
      .keyword .otherwise :: .lbrace :: (Stmt.listTokens b ++ [.rbrace])
  | .fn ps body => .keyword .fn :: .lparen :: paramTokens ps ++
      .rparen :: .lbrace :: (Stmt.listTokens body ++ [.rbrace])
  | .call f es => f.tokens ++ .lparen :: Expr.listTokens es ++ [.rparen]

def Expr.listTokens : List Expr → List Token
  | [] => []
  | [e] => e.tokens
  | e :: f :: es => e.tokens ++ .comma :: Expr.listTokens (f :: es)

def Stmt.tokens : Stmt → List Token
  | .bind name e => .keyword .bind :: .ident name :: .assign :: e.tokens
  | .ret none => [.keyword .ret]
  | .ret (some e) => .keyword .ret :: e.tokens
  | .expr e => e.tokens
  | .block body => .lbrace :: (Stmt.listTokens body ++ [.rbrace])

def Stmt.listTokens : List Stmt → List Token
  | [] => []
  | [s] => s.tokens
  | s :: t :: ss => s.tokens ++ .semicolon :: Stmt.listTokens (t :: ss)

end

theorem decimal_nonneg {value : Int64} (h : 0 ≤ value) :
    toString value.toInt = value.toInt.toNat.repr := by
  have hint : 0 ≤ value.toInt := by simpa [Int64.le_iff_toInt_le] using h
  change value.toInt.repr = _
  rw [Int.repr_eq_if, if_pos hint]

theorem integerValue_decimal {value : Int64} (h : 0 ≤ value) :
    integerValue? (toString value.toInt) = some value := by
  have hlt := value.toInt_lt
  have hnat : Int64.ofNat value.toInt.toNat = value := Int64.ofNat_toNatClampNeg value h
  have hmax : value.toInt.toNat ≤ maxInteger := by
    simp only [maxInteger]
    omega
  rw [decimal_nonneg h, integerValue?, Nat.toList_repr, Nat.ofDigitChars_ten_toDigits, hnat,
    if_pos hmax]

def Ending (us : List Token) (next : Token) : Prop :=
  us = [.semicolon] ∨ us = [] ∧ (next = .rbrace ∨ next = .eof)

theorem ending_terminated {us : List Token} {next : Token} (h : Ending us next) :
    Terminated us next := by
  rcases h with rfl | ⟨rfl, rfl | rfl⟩
  · exact .semicolon next
  · exact .bare _ (by simp)
  · exact .bare _ (by simp)

theorem ending_head {us : List Token} {next : Token} (h : Ending us next) :
    (us.headD next).level = 0 ∧ us.headD next ≠ .keyword .otherwise := by
  rcases h with rfl | ⟨rfl, rfl | rfl⟩ <;> simp [Token.level]

theorem derives_ended {e : Expr} {ts : List Token}
    (he : ∀ (level : Nat) (next : Token), next ≠ .keyword .otherwise →
      Derives (.chain level e) ts next)
    (level : Nat) {next : Token} (hlevel : next.level = 0) (hnext : next ≠ .keyword .otherwise) :
    Derives (.expr level e) ts next :=
  .whole level e ts next (he level next hnext) (hlevel ▸ Nat.zero_le level)

mutual

theorem Expr.derives_tokens : (e : Expr) → e.wellFormed = true → ∀ (level : Nat) (next : Token),
    next ≠ .keyword .otherwise → Derives (.chain level e) e.tokens next
  | .ident name, _, level, next, _ => .start level _ _ next (.ident name next)
  | .int value, h, level, next, _ => by
    have hvalue : 0 ≤ value := by simpa [Expr.wellFormed] using h
    exact .start level _ _ next (.int _ value next (integerValue_decimal hvalue))
  | .bool value, _, level, next, _ => .start level _ _ next (.bool value next)
  | .prefixOp o e, h, level, next, _ => by
    simp only [Expr.wellFormed, Bool.and_eq_true, Bool.or_eq_true, beq_iff_eq] at h
    have he : Derives (.expr 5 e) e.tokens .rparen :=
      derives_ended (Expr.derives_tokens e h.2) 5 rfl (by simp)
    have hop := Derives.prefixOp o e _ .rparen h.1 he
    exact .start level _ _ next (.group _ _ next
      (.whole 0 _ _ _ (.start 0 _ _ _ hop) (by simp [Token.level])))
  | .infixOp o a b, h, level, next, _ => by
    simp only [Expr.wellFormed, Bool.and_eq_true, bne_iff_ne] at h
    have ho : 0 < o.level := by
      have hne := h.1.1
      cases o <;> simp_all [Operator.level]
    have ha := Expr.derives_tokens a h.1.2 0 (.op o) (by simp)
    have hb : Derives (.expr o.level b) b.tokens .rparen :=
      derives_ended (Expr.derives_tokens b h.2) o.level rfl (by simp)
    exact .start level _ _ next (.group _ _ next
      (.whole 0 _ _ _ (.infixOp 0 o a b _ _ .rparen ho ha hb) (by simp [Token.level])))
  | .cond c a none, h, level, next, hnext => by
    simp only [Expr.wellFormed, Bool.and_eq_true] at h
    have hc : Derives (.expr 0 c) c.tokens .rparen :=
      derives_ended (Expr.derives_tokens c h.1) 0 rfl (by simp)
    have ha := Stmt.derives_listTokens a h.2 .rbrace (.inl rfl)
    exact .start level _ _ next (.cond c a _ _ next hc (.closed a _ next ha) hnext)
  | .cond c a (some b), h, level, next, _ => by
    simp only [Expr.wellFormed, Bool.and_eq_true] at h
    have hc : Derives (.expr 0 c) c.tokens .rparen :=
      derives_ended (Expr.derives_tokens c h.1.1) 0 rfl (by simp)
    have ha := Stmt.derives_listTokens a h.1.2 .rbrace (.inl rfl)
    have hb := Stmt.derives_listTokens b h.2 .rbrace (.inl rfl)
    exact .start level _ _ next
      (.condElse c a b _ _ _ next hc (.closed a _ _ ha) (.closed b _ next hb))
  | .fn ps body, h, level, next, _ => by
    simp only [Expr.wellFormed, Bool.and_eq_true] at h
    have hbody := Stmt.derives_listTokens body h.2 .rbrace (.inl rfl)
    exact .start level _ _ next (.fn ps body _ next (.closed body _ next hbody))
  | .call f es, h, level, next, _ => by
    simp only [Expr.wellFormed, Bool.and_eq_true] at h
    have hf := Expr.derives_tokens f h.1 level .lparen (by simp)
    exact .call level f es _ _ next hf (Expr.derives_listTokens es h.2)

theorem Expr.derives_listTokens : (es : List Expr) → Expr.allWellFormed es = true →
    Derives (.arguments es) (Expr.listTokens es) .rparen
  | [], _ => .noArgument .rparen
  | [e], h => by
    simp only [Expr.allWellFormed, Bool.and_eq_true] at h
    exact .lastArgument e _ _ (derives_ended (Expr.derives_tokens e h.1) 0 rfl (by simp))
  | e :: f :: es, h => by
    rw [Expr.allWellFormed, Bool.and_eq_true] at h
    have he : Derives (.expr 0 e) e.tokens .comma :=
      derives_ended (Expr.derives_tokens e h.1) 0 rfl (by simp)
    exact .argument e f es _ _ _ he (Expr.derives_listTokens (f :: es) h.2)

theorem Stmt.derives_tokens : (s : Stmt) → s.wellFormed = true → ∀ (us : List Token)
    (next : Token), Ending us next → Derives (.stmt s) (s.tokens ++ us) next
  | .bind name e, h, us, next, hend => by
    simp only [Stmt.wellFormed, Bool.and_eq_true] at h
    have hhead := ending_head hend
    have he : Derives (.expr 0 e) e.tokens (us.headD next) :=
      derives_ended (Expr.derives_tokens e h.2) 0 hhead.1 hhead.2
    exact .bind name e _ us next he (ending_terminated hend)
  | .ret none, _, us, next, hend => by
    rcases hend with rfl | ⟨rfl, hnext⟩
    · exact .retSemicolon next
    · exact .retOpen next hnext
  | .ret (some e), h, us, next, hend => by
    have hhead := ending_head hend
    have he : Derives (.expr 0 e) e.tokens (us.headD next) :=
      derives_ended (Expr.derives_tokens e h) 0 hhead.1 hhead.2
    exact .ret e _ us next he (ending_terminated hend)
  | .expr e, h, us, next, hend => by
    have hhead := ending_head hend
    have he : Derives (.expr 0 e) e.tokens (us.headD next) :=
      derives_ended (Expr.derives_tokens e h) 0 hhead.1 hhead.2
    exact .expr e _ us next he (ending_terminated hend)
  | .block body, h, _, _, _ => by cases h

theorem Stmt.derives_listTokens : (ss : List Stmt) → Stmt.allWellFormed ss = true →
    ∀ (next : Token), next = .rbrace ∨ next = .eof → Derives (.stmts ss) (Stmt.listTokens ss) next
  | [], _, next, _ => .nil next
  | [s], h, next, hnext => by
    simp only [Stmt.allWellFormed, Bool.and_eq_true] at h
    have hs := Stmt.derives_tokens s h.1 [] next (.inr ⟨rfl, hnext⟩)
    have hlist := Derives.cons s [] _ [] next hs (.nil next)
    simpa [Stmt.listTokens] using hlist
  | s :: t :: ss, h, next, hnext => by
    rw [Stmt.allWellFormed, Bool.and_eq_true] at h
    have hrest := Stmt.derives_listTokens (t :: ss) h.2 next hnext
    have hs := Stmt.derives_tokens s h.1 [.semicolon] ((Stmt.listTokens (t :: ss)).headD next)
      (.inl rfl)
    have hlist := Derives.cons s (t :: ss) _ _ next hs hrest
    simpa [Stmt.listTokens] using hlist

end

/-- The tokens of a well-formed program are that program. -/
theorem derivedFrom_tokens {program : Program} (h : program.WellFormed) :
    program.DerivedFrom (Stmt.listTokens program) :=
  Stmt.derives_listTokens program h .eof (.inr rfl)

end Monkey
