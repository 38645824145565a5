import Monkey.Proofs.Completion
import Monkey.Proofs.OrdinaryValues
import Monkey.Proofs.Tokenization

/-!
# Printed text

What a session prints about trees, values and errors is made of names, numbers,
operators and fixed words. None of it holds a control character, and of two `>`
in a row there are none, since a blank stands on both sides of every operator
between operands, and a parenthesis in front of every operator before one.
-/

set_option autoImplicit false

namespace Monkey

/-- The text shows no control character and no two `>` in a row, and does not begin
with a `>`. -/
structure Legible (text : String) : Prop where
  visible : ∀ c ∈ text.toList, ' ' ≤ c
  apart : ¬ ['>', '>'] <:+: text.toList
  head : text.toList.head? ≠ some '>'

def isPlainChar (c : Char) : Bool := ' ' ≤ c && c != '>'

theorem apart_append {a b : List Char} (ha : ¬ ['>', '>'] <:+: a) (hb : ¬ ['>', '>'] <:+: b)
    (hedge : a.getLast? ≠ some '>' ∨ b.head? ≠ some '>') : ¬ ['>', '>'] <:+: a ++ b := by
  rw [List.infix_append_iff]
  rintro (h | h | ⟨l, m, hlm, hl, hm⟩)
  · exact ha h
  · exact hb h
  · rcases l with _ | ⟨c, _ | ⟨d, _ | _⟩⟩
    · exact hb ((List.nil_append m ▸ hlm) ▸ hm.isInfix)
    · obtain ⟨rfl, rfl⟩ : c = '>' ∧ m = ['>'] := by simpa [eq_comm] using hlm
      obtain ⟨front, rfl⟩ := hl
      obtain ⟨back, rfl⟩ := hm
      rcases hedge with hedge | hedge
      · exact hedge (by simp)
      · exact hedge rfl
    · obtain ⟨rfl, rfl, rfl⟩ : c = '>' ∧ d = '>' ∧ m = [] := by simpa [eq_comm] using hlm
      exact ha hl.isInfix
    · simp at hlm

namespace Legible

theorem of_plain {text : String} (h : text.toList.all isPlainChar = true) : Legible text := by
  simp only [List.all_eq_true, isPlainChar, Bool.and_eq_true, decide_eq_true_eq, bne_iff_ne] at h
  refine ⟨fun c hc => (h c hc).1, fun hpair => ?_, fun hhead => ?_⟩
  · exact (h '>' (hpair.subset (by simp))).2 rfl
  · exact (h '>' (List.mem_of_head? hhead)).2 rfl

theorem append {a b : String} (ha : Legible a) (hb : Legible b) : Legible (a ++ b) := by
  constructor
  · intro c hc
    rw [String.toList_append, List.mem_append] at hc
    exact hc.elim (ha.visible c) (hb.visible c)
  · rw [String.toList_append]
    exact apart_append ha.apart hb.apart (.inr hb.head)
  · rw [String.toList_append, List.head?_append]
    cases h : a.toList.head? with
    | none => simpa using hb.head
    | some c => simpa [h] using ha.head

theorem operator {a : String} (ha : Legible a) {c : Char} (hlast : a.toList.getLast? = some c)
    (hc : c ≠ '>') (o : Operator) : Legible (a ++ o.text) := by
  cases o with
  | greater =>
    have ho : Operator.greater.text.toList = ['>'] := rfl
    constructor
    · intro d hd
      rw [String.toList_append, ho, List.mem_append, List.mem_singleton] at hd
      rcases hd with hd | rfl
      · exact ha.visible d hd
      · decide
    · rw [String.toList_append, ho]
      refine apart_append ha.apart (by decide) (.inl fun hclose => ?_)
      rw [hlast] at hclose
      exact hc (Option.some.inj hclose)
    · rw [String.toList_append, List.head?_append]
      cases h : a.toList.head? with
      | none => simp [List.head?_eq_none_iff.1 h] at hlast
      | some d => simpa [h] using ha.head
  | plus | minus | divide | times | not | less | equal | notEqual =>
    exact ha.append (of_plain (by decide))

theorem between {a b : String} (ha : Legible a) (o : Operator) (hb : Legible b) :
    Legible (a ++ " " ++ o.text ++ " " ++ b) := by
  have hspace : Legible " " := of_plain (by decide)
  have hlast : (a ++ " ").toList.getLast? = some ' ' := by simp
  exact (((ha.append hspace).operator hlast (by decide) o).append hspace).append hb

end Legible

theorem isPlainChar_of_name {c : Char} (h : isNameChar c = true) : isPlainChar c = true := by
  simp only [isNameChar, isPlainChar, Bool.or_eq_true, Bool.and_eq_true, decide_eq_true_eq,
    beq_iff_eq, bne_iff_ne, ne_eq, Char.le_def, UInt32.le_iff_toNat_le, Char.ext_iff,
    ← UInt32.toNat_inj] at *
  simp only [Char.reduceVal, UInt32.reduceToNat] at *
  omega

theorem isPlainChar_of_digit {c : Char} (h : c.isDigit = true) : isPlainChar c = true := by
  simp only [Char.isDigit, isPlainChar, Bool.and_eq_true, decide_eq_true_eq, bne_iff_ne, ne_eq,
    ge_iff_le, Char.le_def, UInt32.le_iff_toNat_le, Char.ext_iff, ← UInt32.toNat_inj] at *
  simp only [Char.reduceVal, UInt32.reduceToNat] at *
  omega

theorem isDigit_ofUInt8 {b : UInt8} (h : isDigit b = true) : (Char.ofUInt8 b).isDigit = true := by
  simp only [Char.isDigit, isDigit, Bytes.val_ofUInt8, Bool.and_eq_true, decide_eq_true_eq,
    ge_iff_le, UInt32.le_iff_toNat_le, UInt8.le_iff_toNat_le, UInt8.toNat_toUInt32] at *
  simp only [Char.reduceVal, UInt32.reduceToNat, UInt8.reduceToNat] at *
  exact h

theorem legible_name {name : String} (h : isName name = true) : Legible name := by
  simp only [isName, Bool.and_eq_true, List.all_eq_true] at h
  exact .of_plain (List.all_eq_true.2 fun c hc => isPlainChar_of_name (h.1.2 c hc))

theorem legible_nat (n : Nat) : Legible n.repr := by
  apply Legible.of_plain
  rw [Nat.repr_eq_ofList_toDigits, String.toList_ofList, List.all_eq_true]
  exact fun c hc =>
    isPlainChar_of_digit (Nat.isDigit_of_mem_toDigits (by decide) (by decide) hc)

theorem legible_int (n : Int) : Legible (toString n) := by
  change Legible n.repr
  rw [Int.repr_eq_if]
  split
  · exact legible_nat _
  · exact .append (.of_plain (by decide)) (legible_nat _)

theorem legible_keyword (word : Keyword) : Legible word.text := by
  apply Legible.of_plain
  cases word with
  | bool value => cases value <;> decide
  | _ => decide

theorem legible_typeName (v : Value) : Legible v.typeName := by
  cases v with
  | int _ => exact (.of_plain rfl : Legible "INTEGER")
  | bool _ => exact (.of_plain rfl : Legible "BOOLEAN")
  | null => exact (.of_plain rfl : Legible "NULL")
  | function _ => exact (.of_plain rfl : Legible "FUNCTION")
  | returned _ => exact (.of_plain rfl : Legible "RETURN_VALUE")
  | error _ => exact (.of_plain rfl : Legible "ERROR")

theorem legible_separated {separator : String} (hseparator : Legible separator)
    {texts : List String} (h : ∀ text ∈ texts, Legible text) :
    Legible (separated separator texts) := by
  induction texts with
  | nil => exact .of_plain rfl
  | cons text rest ih =>
    obtain ⟨htext, hrest⟩ := List.forall_mem_cons.1 h
    cases rest with
    | nil => exact htext
    | cons other rest => exact (htext.append hseparator).append (ih hrest)

theorem legible_braces (statements : Block) {inner : String} (h : Legible inner) :
    Legible (braces statements inner) := by
  unfold braces
  split
  · exact .of_plain (by decide)
  · exact ((Legible.of_plain (by decide)).append h).append (.of_plain (by decide))

mutual

theorem Expr.legible : (e : Expr) → (e.Names fun name => isName name = true) → Legible e.text
  | .ident _, h => legible_name h
  | .int value, _ => legible_int value.toInt
  | .bool value, _ => legible_keyword (.bool value)
  | .prefixOp o e, h => by
    have hopen : Legible "(" := .of_plain (by decide)
    exact ((hopen.operator rfl (by decide) o).append (Expr.legible e h)).append
      (.of_plain (by decide))
  | .infixOp o a b, h => by
    have hopen : Legible ("(" ++ a.text) := .append (.of_plain (by decide)) (Expr.legible a h.1)
    exact (hopen.between o (Expr.legible b h.2)).append (.of_plain (by decide))
  | .cond c a none, h => by
    have hcondition : Legible ("if (" ++ c.text ++ ") ") :=
      ((Legible.of_plain (by decide)).append (Expr.legible c h.1)).append (.of_plain (by decide))
    exact hcondition.append (legible_braces a (Stmt.legibleList a h.2))
  | .cond c a (some b), h => by
    have hcondition : Legible ("if (" ++ c.text ++ ") ") :=
      ((Legible.of_plain (by decide)).append (Expr.legible c h.1)).append (.of_plain (by decide))
    exact ((hcondition.append (legible_braces a (Stmt.legibleList a h.2.1))).append
      (.of_plain (by decide))).append (legible_braces b (Stmt.legibleList b h.2.2))
  | .fn ps body, h => by
    have hparams : Legible (separated ", " ps) :=
      legible_separated (.of_plain (by decide)) fun name hname => legible_name (h.1 name hname)
    exact (((Legible.of_plain (by decide)).append hparams).append (.of_plain (by decide))).append
      (legible_braces body (Stmt.legibleList body h.2))
  | .call f es, h =>
    (((Expr.legible f h.1).append (.of_plain (by decide))).append
      (Expr.legibleList es h.2)).append (.of_plain (by decide))

theorem Expr.legibleList : (es : List Expr) →
    (Expr.AllNames (fun name => isName name = true) es) → Legible (Expr.listText es)
  | [], _ => .of_plain (by decide)
  | [e], h => Expr.legible e h.1
  | e :: f :: es, h =>
    ((Expr.legible e h.1).append (.of_plain (by decide))).append (Expr.legibleList (f :: es) h.2)

theorem Stmt.legible : (s : Stmt) → (s.Names fun name => isName name = true) → Legible s.text
  | .bind _ e, h =>
    (((Legible.of_plain (by decide)).append (legible_name h.1)).append
      (.of_plain (by decide))).append (Expr.legible e h.2)
  | .ret none, _ => .of_plain (by decide)
  | .ret (some e), h => (Legible.of_plain (by decide)).append (Expr.legible e h)
  | .expr e, h => Expr.legible e h
  | .block body, h => legible_braces body (Stmt.legibleList body h)

theorem Stmt.legibleList : (ss : List Stmt) →
    (Stmt.AllNames (fun name => isName name = true) ss) → Legible (Stmt.listText ss)
  | [], _ => .of_plain (by decide)
  | [s], h => Stmt.legible s h.1
  | s :: t :: ss, h =>
    ((Stmt.legible s h.1).append (.of_plain (by decide))).append (Stmt.legibleList (t :: ss) h.2)

end

theorem EvalError.legible {e : EvalError} (h : e.Names fun name => isName name = true) :
    Legible e.message := by
  have hword : ∀ {text : String}, text.toList.all isPlainChar = true → Legible text := .of_plain
  cases e with
  | unbound name => exact (hword (by decide)).append (legible_name h)
  | unknownPrefix o operand =>
    obtain ⟨v, rfl⟩ := h
    have hfront : Legible "unknown operator: " := hword (by decide)
    exact (hfront.operator rfl (by decide) o).append (legible_typeName v)
  | unknownInfix left o right =>
    obtain ⟨v, w, rfl, rfl⟩ := h
    exact ((hword (by decide)).append (legible_typeName v)).between o (legible_typeName w)
  | typeMismatch left o right =>
    obtain ⟨v, w, rfl, rfl⟩ := h
    exact ((hword (by decide)).append (legible_typeName v)).between o (legible_typeName w)
  | notAFunction type =>
    obtain ⟨v, rfl⟩ := h
    exact (hword (by decide)).append (legible_typeName v)
  | arity got want =>
    exact (((hword (by decide)).append (legible_nat got)).append (hword (by decide))).append
      (legible_nat want)
  | divisionByZero => exact hword (by decide)

theorem Value.legible {v : Value} (h : v.Yielded fun name => isName name = true) :
    Legible v.text := by
  induction v with
  | function f => exact Expr.legible _ h
  | returned w ih => exact ih h
  | error e => exact h.elim
  | int n => exact legible_int n.toInt
  | bool b => exact legible_keyword (.bool b)
  | null => exact .of_plain (by decide)

theorem legible_kind (kind : Token.Kind) : Legible kind.name := by
  apply Legible.of_plain
  cases kind with
  | op o => cases o <;> decide
  | keyword word =>
    cases word with
    | bool value => cases value <;> decide
    | _ => decide
  | _ => decide

theorem Splits.digits {source : Bytes} {ts : List Token} (h : Splits source ts) {digits : String}
    (hmem : .int digits ∈ ts) : Legible digits := by
  induction h with
  | done => cases hmem
  | token blanks spelling rest t ts _ hspelling _ _ ih =>
    rcases List.mem_cons.1 hmem with rfl | hmem
    · obtain ⟨_, hdigits, rfl⟩ := hspelling
      apply Legible.of_plain
      rw [Bytes.toText, String.toList_ofList, List.all_map, List.all_eq_true]
      exact fun b hb => isPlainChar_of_digit (isDigit_ofUInt8 (hdigits b hb))
    · exact ih hmem

theorem ParseError.legible {source : Bytes} {error : ParseError}
    (h : error ∈ (Parser.ofTokens (Token.all source)).parse.2.errors) : Legible error.message := by
  obtain ⟨t, ht, hblames⟩ := Control.run_blames _ _ error h
  have hword : ∀ {text : String}, text.toList.all isPlainChar = true → Legible text := .of_plain
  cases error with
  | unexpected expected found =>
    exact ((((hword (by decide)).append (legible_kind expected)).append (hword (by decide))).append
      (legible_kind found)).append (hword (by decide))
  | noExpression found =>
    exact ((hword (by decide)).append (legible_kind found)).append (hword (by decide))
  | integerTooLarge digits =>
    obtain rfl : t = .int digits := hblames
    have hmem : .int digits ∈ Token.all source := by
      rcases List.mem_append.1 ht with hmem | hmem
      · exact hmem
      · simp at hmem
    exact ((hword (by decide)).append ((Token.all_splits source).digits hmem)).append
      (hword (by decide))

end Monkey
