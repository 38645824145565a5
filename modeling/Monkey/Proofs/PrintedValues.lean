import Mathlib
import Monkey.Proofs.Framing
import Monkey.Proofs.PlainScopes
import Monkey.Proofs.RoundTrip

/-!
# Printed values are read back

What is printed for an integer, a truth value or a function is the text of an
expression that has the value again, whatever the session it is entered into. A
negative integer comes back as a minus sign in front of a literal, so the smallest
one is an exception: the literal is too large. The function values of a session come
from its lines, all of which were parsed, so that their texts can be parsed as well.
-/

set_option autoImplicit false

namespace Monkey

/-! ### Functions that can be written -/

def writtenLiteral : LiteralRule := fun _ ps body => (Expr.fn ps body).wellFormed = true

mutual

theorem Expr.literals_written : (e : Expr) → (site : Site) → e.wellFormed = true →
    e.Literals writtenLiteral site
  | .ident _, _, _ => trivial
  | .int _, _, _ => trivial
  | .bool _, _, _ => trivial
  | .prefixOp _ e, _, h => Expr.literals_written e _ (Bool.and_eq_true_iff.1 h).2
  | .infixOp _ e f, _, h => by
    simp only [Expr.wellFormed, Bool.and_eq_true] at h
    exact ⟨Expr.literals_written e _ h.1.2, Expr.literals_written f _ h.2⟩
  | .cond c a none, _, h => by
    simp only [Expr.wellFormed, Bool.and_eq_true] at h
    exact ⟨Expr.literals_written c _ h.1, Stmt.allLiterals_written a _ h.2⟩
  | .cond c a (some b), _, h => by
    simp only [Expr.wellFormed, Bool.and_eq_true] at h
    exact ⟨Expr.literals_written c _ h.1.1, Stmt.allLiterals_written a _ h.1.2,
      Stmt.allLiterals_written b _ h.2⟩
  | .fn _ body, _, h => ⟨h, Stmt.allLiterals_written body _ (Bool.and_eq_true_iff.1 h).2⟩
  | .call f es, _, h => by
    simp only [Expr.wellFormed, Bool.and_eq_true] at h
    exact ⟨Expr.literals_written f _ h.1, Expr.allLiterals_written es _ h.2⟩

theorem Expr.allLiterals_written : (es : List Expr) → (site : Site) →
    Expr.allWellFormed es = true → Expr.AllLiterals writtenLiteral site es
  | [], _, _ => trivial
  | e :: es, _, h =>
    ⟨Expr.literals_written e _ (Bool.and_eq_true_iff.1 h).1,
      Expr.allLiterals_written es _ (Bool.and_eq_true_iff.1 h).2⟩

theorem Stmt.literals_written : (s : Stmt) → (site : Site) → s.wellFormed = true →
    s.Literals writtenLiteral site
  | .bind _ e, _, h => Expr.literals_written e _ (Bool.and_eq_true_iff.1 h).2
  | .ret none, _, _ => trivial
  | .ret (some e), _, h => Expr.literals_written e _ h
  | .expr e, _, h => Expr.literals_written e _ h

theorem Stmt.allLiterals_written : (ss : List Stmt) → (site : Site) →
    Stmt.allWellFormed ss = true → Stmt.AllLiterals writtenLiteral site ss
  | [], _, _ => trivial
  | s :: ss, _, h =>
    ⟨Stmt.literals_written s _ (Bool.and_eq_true_iff.1 h).1,
      Stmt.allLiterals_written ss _ (Bool.and_eq_true_iff.1 h).2⟩

end

section

variable {limit : Nat} {scope : ScopeId} {first last : Session}

theorem Session.interpret_sound (h : first.scopes.Sound writtenLiteral)
    (hscope : scope < first.scopes.size) {line : Bytes} {reply : Reply}
    (hline : first.interpret limit line scope = some (reply, last)) :
    last.scopes.Sound writtenLiteral ∧ scope < last.scopes.size ∧
      ∀ v, reply = .finished (some v) → v.Sound writtenLiteral last.scopes.size := by
  unfold interpret at hline
  split at hline
  · cases hline
    exact ⟨h, hscope, fun _ hv => nomatch hv⟩
  · next program hprogram =>
    have hwell : program.WellFormed := by
      obtain ⟨rfl, _⟩ := Program.ofBytes_ok hprogram
      exact parse_wellFormed (Lexer.ofBytes line)
    obtain ⟨hkept, hvalue⟩ := Program.eval_sound h limit first.programs hscope
      (Stmt.allLiterals_written program ⟨first.programs, []⟩ hwell)
    unfold evaluate at hline
    split at hline
    · next value scopes heval =>
      cases hline
      obtain ⟨hsize, hsound⟩ := hkept scopes (by rw [heval]; rfl)
      refine ⟨hsound, Nat.lt_of_lt_of_le hscope hsize, fun v hv => ?_⟩
      cases hv
      exact hvalue v scopes heval
    · next error scopes heval =>
      cases hline
      obtain ⟨hsize, hsound⟩ := hkept scopes (by rw [heval]; rfl)
      exact ⟨hsound, Nat.lt_of_lt_of_le hscope hsize, fun _ hv => nomatch hv⟩
    · cases hline

theorem Session.Converses.sound {lines : List Bytes} {replies : List Reply}
    (h : first.Converses limit scope lines replies last)
    (hfirst : first.scopes.Sound writtenLiteral) (hscope : scope < first.scopes.size) :
    ∀ v, .finished (some v) ∈ replies → ∃ count, v.Sound writtenLiteral count := by
  induction h with
  | done => exact fun _ h => nomatch h
  | turn line reply rest replies first next last hline _ ih =>
    obtain ⟨hnext, hlater, hvalue⟩ := Session.interpret_sound hfirst hscope hline
    intro v hv
    rcases List.mem_cons.1 hv with hv | hv
    · exact ⟨_, hvalue v hv.symm⟩
    · exact ih hnext hlater v hv

end

theorem sound_root : Session.empty.root.2.scopes.Sound writtenLiteral :=
  Session.Reached.sound (fun _ _ h => h.elim) (.root : Session.Reached (fun _ => False) _)

/-! ### The expression that a value is printed as -/

/-- The text of the value is that of the expression, or of its tokens without brackets. -/
inductive Value.WrittenAs : Value → Expr → Prop where
  | natural (n : Int64) (h : 0 ≤ n) : WrittenAs (.int n) (.int n)
  | negative (n : Int64) (h : 0 < n) : WrittenAs (.int (-n)) (.prefixOp .minus (.int n))
  | bool (b : Bool) : WrittenAs (.bool b) (.bool b)
  | function (f : Closure) (h : (Expr.fn f.params f.body).wellFormed = true) :
      WrittenAs (.function f) (.fn f.params f.body)

theorem toInt_minus {n : Int64} (h : n ≠ Int64.minValue) : (-n).toInt = -n.toInt := by
  have hlow := n.le_toInt
  have hhigh := n.toInt_lt
  have hne : n.toInt ≠ -2 ^ 63 := fun heq =>
    h (Int64.toInt_inj.1 (heq.trans Int64.toInt_minValue.symm))
  rw [Int64.toInt_neg, Int.bmod_eq_of_le] <;> omega

theorem minus_text {n : Int64} (h : 0 < n) :
    toString (-n).toInt = "-" ++ toString n.toInt := by
  have hpos : 0 < n.toInt := by simpa [Int64.lt_iff_toInt_lt] using h
  have hne : n ≠ Int64.minValue := by
    rintro rfl
    exact absurd hpos (by decide)
  change (-n).toInt.repr = "-" ++ n.toInt.repr
  rw [toInt_minus hne, Int.repr_eq_if, if_neg (by omega), Int.repr_eq_if, if_pos (by omega),
    Int.neg_neg]

theorem ofBytes_minus {n : Int64} (h : 0 ≤ n) :
    Program.ofBytes (Bytes.ofText ("-" ++ toString n.toInt)) =
      .ok [.expr (.prefixOp .minus (.int n))] := by
  have htokens : Token.all (Bytes.ofText ("-" ++ toString n.toInt)) =
      [.op .minus, .int (toString n.toInt)] := by
    have hdigits := readAs_decimal h [] apart_nil
    rw [List.append_nil, Token.all_nil] at hdigits
    rw [Bytes.ofText_append, show Bytes.ofText "-" = [45] from rfl, List.singleton_append,
      Token.all_minus, hdigits]
    rfl
  rw [Program.ofBytes, htokens]
  refine parseProgram_of_derives ?_
  have hatom : Derives (.atom (.prefixOp .minus (.int n)))
      [.op .minus, .int (toString n.toInt)] .eof :=
    .prefixOp .minus _ _ _ (.inr rfl)
      (.whole _ _ _ _ (.start _ _ _ _ (.int _ n _ (integerValue_decimal h))) (Nat.zero_le 5))
  have hstmt : Derives (.stmt (.expr (.prefixOp .minus (.int n))))
      ([.op .minus, .int (toString n.toInt)] ++ []) .eof :=
    .expr _ _ _ _ (.whole _ _ _ _ (.start _ _ _ _ hatom) (Nat.le_refl 0)) (.bare _ (by simp))
  exact .cons _ _ _ _ _ hstmt (.nil _)

theorem Value.WrittenAs.parsed {v : Value} {e : Expr} (h : v.WrittenAs e) :
    Program.ofBytes (Bytes.ofText v.text) = .ok [.expr e] := by
  have hwhole : ∀ e : Expr, e.wellFormed = true →
      Program.ofBytes (Bytes.ofText e.text) = .ok [.expr e] := by
    intro e he
    have hprogram : Program.WellFormed [.expr e] := by
      simp [Program.WellFormed, Stmt.allWellFormed, Stmt.wellFormed, he]
    exact (ofBytes_text hprogram :)
  cases h with
  | natural n h => exact hwhole (.int n) (by simpa [Expr.wellFormed] using h)
  | negative n h =>
    rw [Value.text, minus_text h]
    exact ofBytes_minus (Int64.le_of_lt h)
  | bool b => exact hwhole (.bool b) rfl
  | function f h => exact hwhole _ h

/-- The same integer or truth value, or a function with equal parameters and body. -/
def Value.Again : Value → Value → Prop
  | .function f, answer => ∃ g, answer = .function g ∧ g.params = f.params ∧ g.body = f.body
  | v, answer => answer = v

theorem Value.Again.text_eq {v answer : Value} (h : v.Again answer) : answer.text = v.text := by
  cases v with
  | function f =>
    obtain ⟨g, rfl, hparams, hbody⟩ := h
    simp only [Value.text, hparams, hbody]
  | _ => exact congrArg Value.text h

theorem Value.WrittenAs.interpreted {v : Value} {e : Expr} (h : v.WrittenAs e) (session : Session)
    (limit : Nat) (scope : ScopeId) :
    ∃ answer, v.Again answer ∧ session.interpret limit (Bytes.ofText v.text) scope =
      some (.finished (some answer), ⟨session.scopes, session.programs + 1⟩) := by
  unfold Session.interpret
  rw [h.parsed]
  cases h with
  | natural n h => exact ⟨.int n, rfl, rfl⟩
  | negative n h => exact ⟨.int (-n), rfl, rfl⟩
  | bool b => exact ⟨.bool b, rfl, rfl⟩
  | function f h => exact ⟨.function ⟨f.params, f.body, scope, _⟩, ⟨_, rfl, rfl, rfl⟩, rfl⟩

theorem Value.WrittenAs.legible {v : Value} {e : Expr} (h : v.WrittenAs e) : Legible v.text := by
  cases h with
  | natural n h => exact legible_int n.toInt
  | negative n h => exact legible_int (-n).toInt
  | bool b => exact legible_keyword (.bool b)
  | function f h => exact Expr.legible _ (Expr.names_of_wellFormed _ h)

theorem Value.Sound.written {v : Value} {count : Nat} (h : v.Sound writtenLiteral count)
    (hkind : (∃ n, v = .int n) ∨ (∃ b, v = .bool b) ∨ ∃ f, v = .function f)
    (hmin : v ≠ .int Int64.minValue) : ∃ e, v.WrittenAs e := by
  rcases hkind with ⟨n, rfl⟩ | ⟨b, rfl⟩ | ⟨f, rfl⟩
  · by_cases hn : 0 ≤ n
    · exact ⟨_, .natural n hn⟩
    · have hne : n ≠ Int64.minValue := fun heq => hmin (congrArg Value.int heq)
      have hneg : n.toInt < 0 := by simpa [Int64.le_iff_toInt_le] using hn
      have hminus : 0 < -n := by
        rw [Int64.lt_iff_toInt_lt, toInt_minus hne, Int64.toInt_zero]
        omega
      have hwritten := Value.WrittenAs.negative (-n) hminus
      rw [Int64.neg_neg] at hwritten
      exact ⟨_, hwritten⟩
  · exact ⟨_, .bool b⟩
  · exact ⟨_, .function f h.2.1⟩

theorem ofBytes_minimum :
    Program.ofBytes (Bytes.ofText (Value.int Int64.minValue).text) =
      .error [.integerTooLarge "9223372036854775808"] := by
  cbv

/-! ### Lines that values are printed for -/

theorem isText_ofText (text : String) : (Bytes.ofText text).isText = true := by
  unfold Bytes.isText Bytes.ofText
  rw [ByteArray.validateUTF8_eq_true_iff]
  refine ⟨text.toList, ?_⟩
  ext1
  simp [List.utf8Encode]

theorem encode_visible {c : Char} (h : ' ' ≤ c) : ∀ b ∈ String.utf8EncodeChar c, 32 ≤ b.toNat := by
  have hvalue : 32 ≤ c.toNat := h
  simp only [String.utf8EncodeChar, Char.toNat_val]
  (repeat' split) <;> simp [UInt8.toNat_ofNat'] <;> omega

theorem Legible.ofText_ends {text : String} (h : Legible text) :
    10 ∉ Bytes.ofText text ∧ (Bytes.ofText text).getLast? ≠ some 13 := by
  have hbytes : ∀ b ∈ Bytes.ofText text, 32 ≤ b.toNat := by
    intro b hb
    obtain ⟨c, hc, hb⟩ := List.mem_flatMap.1 hb
    exact encode_visible (h.visible c hc) b hb
  refine ⟨fun hmem => ?_, fun hlast => ?_⟩
  · exact absurd (hbytes _ hmem) (by decide)
  · exact absurd (hbytes _ (List.mem_of_getLast? hlast)) (by decide)

theorem Transcript.written_snoc (replies : List Reply) (reply : Reply) :
    written (replies ++ [reply]) = written replies ++ reply.text ++ prompt := by
  induction replies with
  | nil => rfl
  | cons first replies ih => simp only [List.cons_append, written, ih, String.append_assoc]

section

variable {limit : Nat} {input : Bytes} {lines : List Bytes} {replies : List Reply} {last : Session}

theorem Transcript.ofInput_texts (hlines : Bytes.Divided input lines)
    (hall : lines.all Bytes.isText = true)
    (hreplies : Session.empty.root.2.Converses limit Session.empty.root.1 lines replies last) :
    ofInput limit input = some ⟨written replies, none⟩ := by
  unfold ofInput
  rw [hlines.lines_eq]
  refine (ofLines_eq_some_iff _).2 ⟨replies, last, ?_, ?_⟩
  · rwa [List.takeWhile_eq_self_iff.2 (List.all_eq_true.1 hall)]
  · rw [breakdown, if_pos hall]

theorem Transcript.ofInput_snoc {next : Session} {reply : Reply} {text : String}
    (hlines : Bytes.Divided input lines) (hclosed : input = [] ∨ input.getLast? = some 10)
    (hall : lines.all Bytes.isText = true) (hlegible : Legible text)
    (hreplies : Session.empty.root.2.Converses limit Session.empty.root.1 lines replies last)
    (hreply : last.interpret limit (Bytes.ofText text) Session.empty.root.1 = some (reply, next)) :
    ofInput limit (input ++ Bytes.ofText text ++ [10]) =
      some ⟨written replies ++ reply.text ++ prompt, none⟩ := by
  obtain ⟨hfeed, hreturn⟩ := hlegible.ofText_ends
  have hdivided : Bytes.Divided (input ++ (Bytes.ofText text ++ [10]))
      (lines ++ [Bytes.ofText text]) :=
    hlines.append hclosed (.ended _ _ _ hfeed hreturn .nothing)
  have hall : (lines ++ [Bytes.ofText text]).all Bytes.isText = true := by
    simp [hall, isText_ofText]
  rw [List.append_assoc, ← written_snoc]
  exact ofInput_texts hdivided hall (hreplies.append (.turn _ _ _ _ _ _ _ hreply (.done next)))

end

/-- If the last line of an input has an integer, a truth value or a function for its value,
and the text that was printed for it is entered as the next line, the same text is printed
once more. An integer or a truth value is the same one again, and a function has the same
parameters and the same body. Only the smallest integer is rejected, for its magnitude is
too large for a literal. -/
theorem printed_value_read_back {limit : Nat} {input : Bytes} {lines : List Bytes}
    {replies : List Reply} {value : Value} {last : Session}
    (hlines : Bytes.Divided input lines) (hclosed : input.getLast? = some 10)
    (hall : lines.all Bytes.isText = true)
    (hreplies : Session.empty.root.2.Converses limit Session.empty.root.1 lines
      (replies ++ [.finished (some value)]) last)
    (hkind : (∃ n, value = .int n) ∨ (∃ b, value = .bool b) ∨ ∃ f, value = .function f) :
    let before := Transcript.written replies ++ value.text ++ "\n" ++ Transcript.prompt
    let transcript := Transcript.ofInput limit (input ++ Bytes.ofText value.text ++ [10])
    let turn := last.turn limit Session.empty.root.1 (Bytes.ofText value.text)
    Transcript.ofInput limit input = some ⟨before, none⟩ ∧
    (value ≠ .int Int64.minValue →
      transcript = some ⟨before ++ value.text ++ "\n" ++ Transcript.prompt, none⟩ ∧
      ∃ answer next, turn = .reply (.finished (some answer)) next ∧ answer.text = value.text ∧
        ((∀ f, value ≠ .function f) → answer = value) ∧
        ∀ f, value = .function f →
          ∃ g, answer = .function g ∧ g.params = f.params ∧ g.body = f.body) ∧
    (value = .int Int64.minValue →
      transcript = some ⟨before ++ (Reply.rejected [.integerTooLarge "9223372036854775808"]).text ++
        Transcript.prompt, none⟩ ∧
      turn = .reply (.rejected [.integerTooLarge "9223372036854775808"]) last) := by
  have hinput := Transcript.ofInput_texts hlines hall hreplies
  have hwritten : Transcript.written (replies ++ [.finished (some value)]) =
      Transcript.written replies ++ value.text ++ "\n" ++ Transcript.prompt := by
    rw [Transcript.written_snoc, Reply.text, ← String.append_assoc]
  obtain ⟨count, hsound⟩ := hreplies.sound sound_root (by decide) value (by simp)
  intro before transcript turn
  have hsnoc : ∀ {reply : Reply} {next : Session}, Legible value.text →
      last.interpret limit (Bytes.ofText value.text) Session.empty.root.1 = some (reply, next) →
      transcript = some ⟨before ++ reply.text ++ Transcript.prompt, none⟩ ∧
        turn = .reply reply next := by
    intro reply next hlegible hreply
    refine ⟨?_, ?_⟩
    · rw [show before = _ from hwritten.symm]
      exact Transcript.ofInput_snoc hlines (.inr hclosed) hall hlegible hreplies hreply
    · simp only [turn, Session.turn, isText_ofText, if_true, hreply]
  refine ⟨by rw [hinput, hwritten], fun hmin => ?_, fun hmin => ?_⟩
  · obtain ⟨e, he⟩ := hsound.written hkind hmin
    obtain ⟨answer, hagain, hreply⟩ := he.interpreted last limit Session.empty.root.1
    obtain ⟨htranscript, hturn⟩ := hsnoc he.legible hreply
    refine ⟨?_, answer, _, hturn, hagain.text_eq, fun hf => ?_, fun f hf => ?_⟩
    · rw [htranscript, Reply.text, hagain.text_eq, ← String.append_assoc]
    · cases value with
      | function f => exact absurd rfl (hf f)
      | _ => exact hagain
    · subst hf
      exact hagain
  · subst hmin
    refine hsnoc (legible_int _) ?_
    unfold Session.interpret
    rw [ofBytes_minimum]

/-- A function that an earlier line has bound, entered as it was printed. -/
theorem bound_function_read_back :
    let declared := "let f = fn(x) \x7b -x \x7d"
    let printed := "fn(x) \x7b (-x) \x7d"
    let f : Closure := ⟨["x"], [.expr (.prefixOp .minus (.ident "x"))], 0, ⟨0, [0, 0]⟩⟩
    let last : Session := ⟨#[⟨none, [("f", .function f)]⟩], 2⟩
    Session.empty.root.2.Converses 0 Session.empty.root.1 [Bytes.ofText declared, Bytes.ofText "f"]
      [.finished none, .finished (some (.function f))] last ∧
    Transcript.ofInput 0
        (Bytes.ofText "let f = fn(x) \x7b -x \x7d\nf\n" ++ Bytes.ofText printed ++ [10]) =
      some ⟨">> >> " ++ printed ++ "\n>> " ++ printed ++ "\n>> ", none⟩ ∧
    ∃ g next, last.turn 0 Session.empty.root.1 (Bytes.ofText printed) =
        .reply (.finished (some (.function g))) next ∧
      g.params = f.params ∧ g.body = f.body := by
  intro declared printed f last
  have hlines : Bytes.Divided (Bytes.ofText "let f = fn(x) \x7b -x \x7d\nf\n")
      [Bytes.ofText declared, Bytes.ofText "f"] := (Bytes.divided_iff _ _).2 (by cbv)
  have hone : Session.empty.root.2.interpret 0 (Bytes.ofText declared) Session.empty.root.1 =
      some (.finished none, ⟨last.scopes, 1⟩) := by cbv
  have htwo : (Session.mk last.scopes 1).interpret 0 (Bytes.ofText "f") Session.empty.root.1 =
      some (.finished (some (.function f)), last) := by cbv
  have hreplies : Session.empty.root.2.Converses 0 Session.empty.root.1
      [Bytes.ofText declared, Bytes.ofText "f"]
      ([.finished none] ++ [.finished (some (.function f))]) last :=
    .turn _ _ _ _ _ _ _ hone (.turn _ _ _ _ _ _ _ htwo (.done _))
  have hall : [Bytes.ofText declared, Bytes.ofText "f"].all Bytes.isText = true := by
    simp [isText_ofText]
  have htext : (Value.function f).text = printed := by decide
  obtain ⟨_, hagain, _⟩ := printed_value_read_back hlines (by cbv) hall hreplies
    (.inr (.inr ⟨f, rfl⟩))
  obtain ⟨htranscript, answer, next, hturn, _, _, hfunction⟩ := hagain Value.noConfusion
  obtain ⟨g, rfl, hparams, hbody⟩ := hfunction f rfl
  rw [htext] at htranscript hturn
  refine ⟨hreplies, ?_, g, next, hturn, hparams, hbody⟩
  rw [htranscript]
  exact congrArg (fun output => some (Transcript.mk output none)) (by decide)

end Monkey
