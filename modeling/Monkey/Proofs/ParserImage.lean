import Monkey.Parser
import Monkey.Proofs.Lexing

/-!
# What the parser can return

Every tree that the parser builds is well-formed, also where statements around it
were given up: whatever is on the stack is, and a step only puts together what is
there. Names come from identifiers, and reading makes an identifier only of a
name.
-/

set_option autoImplicit false

namespace Monkey

def Token.named : Token → Bool
  | .ident name => isName name
  | _ => true

def Hole.wellFormed : Hole → Bool
  | .prefixOp o => o == .not || o == .minus
  | .infixOp o left => o != .not && left.wellFormed
  | .argument f before => f.wellFormed && Expr.allWellFormed before
  | .bind name => isName name
  | .group | .condition | .ret => true

def Owner.wellFormed : Owner → Bool
  | .consequence c => c.wellFormed
  | .alternative c a => c.wellFormed && Stmt.allWellFormed a
  | .body ps => ps.all isName

def Frame.wellFormed : Frame → Bool
  | .hole h => h.wellFormed
  | .block owner ss => owner.wellFormed && Stmt.allWellFormed ss

def Mode.wellFormed : Mode → Bool
  | .operator left _ => left.wellFormed
  | .bindAssign name => isName name
  | .consequenceOpen c => c.wellFormed
  | .consequenceEnd c a | .alternativeOpen c a => c.wellFormed && Stmt.allWellFormed a
  | .param ps | .paramEnd ps | .bodyOpen ps => ps.all isName
  | .arguments f => f.wellFormed
  | _ => true

def Ended.wellFormed : Ended → Bool
  | .expr e _ => e.wellFormed
  | .stmt s => s.wellFormed
  | _ => true

def Stack.WellFormed (stack : Stack) : Prop := ∀ frame ∈ stack, frame.wellFormed = true

def Control.WellFormed (control : Control) : Prop :=
  control.mode.wellFormed = true ∧ Stack.WellFormed control.stack

structure Move.WellFormed (move : Move) : Prop where
  control : move.control.WellFormed
  statements : Stmt.allWellFormed move.statements = true

theorem Stmt.allWellFormed_append (ss ts : List Stmt) :
    Stmt.allWellFormed (ss ++ ts) = (Stmt.allWellFormed ss && Stmt.allWellFormed ts) := by
  induction ss with
  | nil => rfl
  | cons s ss ih => simp only [List.cons_append, Stmt.allWellFormed, ih, Bool.and_assoc]

theorem Expr.allWellFormed_append (es fs : List Expr) :
    Expr.allWellFormed (es ++ fs) = (Expr.allWellFormed es && Expr.allWellFormed fs) := by
  induction es with
  | nil => rfl
  | cons e es ih => simp only [List.cons_append, Expr.allWellFormed, ih, Bool.and_assoc]

theorem Stack.wellFormed_cons (frame : Frame) (rest : Stack) :
    Stack.WellFormed (frame :: rest) ↔ frame.wellFormed = true ∧ Stack.WellFormed rest := by
  simp [Stack.WellFormed]

theorem Owner.expr_wellFormed {owner : Owner} {ss : Block} (howner : owner.wellFormed = true)
    (hss : Stmt.allWellFormed ss = true) : (owner.expr ss).wellFormed = true := by
  cases owner <;> simp_all [Owner.wellFormed, Owner.expr, Expr.wellFormed]

theorem Owner.close_wellFormed {owner : Owner} {ss : Block} (howner : owner.wellFormed = true)
    (hss : Stmt.allWellFormed ss = true) : (owner.close ss).wellFormed = true := by
  cases owner <;>
    simp_all [Owner.wellFormed, Owner.close, Owner.expr, Mode.wellFormed, Expr.wellFormed]

theorem integerValue_nonneg {digits : String} {value : Int64}
    (h : integerValue? digits = some value) : 0 ≤ value := by
  unfold integerValue? at h
  split at h
  · next hmax =>
    cases h
    simp only [maxInteger] at hmax
    exact Int64.zero_le_ofNat_of_lt (by omega)
  · cases h

namespace Move.WellFormed

theorem quiet {control : Control} (h : control.WellFormed) : (Move.quiet control).WellFormed :=
  ⟨h, rfl⟩

theorem withError {move : Move} (h : move.WellFormed) (error : ParseError) :
    (move.withError error).WellFormed :=
  ⟨h.control, h.statements⟩

theorem withStatement {move : Move} {s : Stmt} (h : move.WellFormed) (hs : s.wellFormed = true) :
    (move.withStatement s).WellFormed := by
  refine ⟨h.control, ?_⟩
  change Stmt.allWellFormed (s :: move.statements) = true
  rw [Stmt.allWellFormed, hs, h.statements]
  rfl

theorem followedBy {first later : Move} (hfirst : first.WellFormed) (hlater : later.WellFormed) :
    (first.followedBy later).WellFormed := by
  refine ⟨hlater.control, ?_⟩
  change Stmt.allWellFormed (first.statements ++ later.statements) = true
  rw [Stmt.allWellFormed_append, hfirst.statements, hlater.statements]
  rfl

end Move.WellFormed

namespace Control

theorem startExpr_wellFormed {t : Token} {stack : Stack} {c : Control} (ht : t.named = true)
    (hstack : Stack.WellFormed stack) (h : startExpr t stack = .ok c) : c.WellFormed := by
  unfold startExpr at h
  split at h
  · cases h
    exact ⟨ht, hstack⟩
  · next digits =>
    split at h
    · next value hvalue =>
      cases h
      exact ⟨by simpa [Mode.wellFormed, Expr.wellFormed] using integerValue_nonneg hvalue, hstack⟩
    · cases h
  · cases h
    exact ⟨rfl, hstack⟩
  · cases h
    exact ⟨rfl, (Stack.wellFormed_cons _ _).2 ⟨rfl, hstack⟩⟩
  · cases h
    exact ⟨rfl, (Stack.wellFormed_cons _ _).2 ⟨rfl, hstack⟩⟩
  · cases h
    exact ⟨rfl, (Stack.wellFormed_cons _ _).2 ⟨rfl, hstack⟩⟩
  · cases h
    exact ⟨rfl, hstack⟩
  · cases h
    exact ⟨rfl, hstack⟩
  · cases h

theorem extendExpr_wellFormed {t : Token} {level : Nat} {e : Expr} {stack : Stack} {c : Control}
    (he : e.wellFormed = true) (hstack : Stack.WellFormed stack)
    (h : extendExpr? t level e stack = some c) : c.WellFormed := by
  unfold extendExpr? at h
  split at h
  · next o =>
    split at h
    · next hlevel =>
      cases h
      have ho : o ≠ .not := by
        rintro rfl
        simp [Operator.level] at hlevel
      refine ⟨rfl, (Stack.wellFormed_cons _ _).2 ⟨?_, hstack⟩⟩
      simp [Frame.wellFormed, Hole.wellFormed, ho, he]
    · cases h
  · cases h
    exact ⟨he, hstack⟩
  · cases h

theorem startStmt_wellFormed {t : Token} {stack : Stack} (ht : t.named = true)
    (hstack : Stack.WellFormed stack) : (startStmt t stack).WellFormed := by
  unfold startStmt
  split
  · exact .quiet ⟨rfl, hstack⟩
  · exact .quiet ⟨rfl, hstack⟩
  · split
    · next c hc => exact .quiet (startExpr_wellFormed ht hstack hc)
    · split
      · exact ⟨⟨rfl, hstack⟩, rfl⟩
      · exact ⟨⟨rfl, hstack⟩, rfl⟩

theorem idle_wellFormed : idle.WellFormed := ⟨rfl, by simp [Stack.WellFormed, idle]⟩

theorem empty_wellFormed : Stack.WellFormed [] := by simp [Stack.WellFormed]

section Settling

variable {t : Token} (ht : t.named = true)
include ht

theorem between_wellFormed : (atTop.between t).WellFormed := by
  unfold atTop.between
  split
  · exact .quiet idle_wellFormed
  · exact startStmt_wellFormed ht empty_wellFormed

theorem atTop_wellFormed {ended : Ended} (h : ended.wellFormed = true) :
    (atTop t ended).WellFormed := by
  have hbetween := between_wellFormed ht
  have hafter : ∀ s : Stmt, s.wellFormed = true → (atTop.afterStmt t s).WellFormed := by
    intro s hs
    unfold atTop.afterStmt
    split
    · exact ⟨idle_wellFormed, by simp [Stmt.allWellFormed, hs]⟩
    · exact hbetween.withStatement hs
  have hskipped : (atTop.skipped t).WellFormed := by
    unfold atTop.skipped
    split
    · exact .quiet idle_wellFormed
    · split
      · exact hbetween
      · exact .quiet ⟨rfl, empty_wellFormed⟩
  cases ended with
  | expr e braced =>
    simp only [atTop]
    split
    · next c hc => exact .quiet (extendExpr_wellFormed h empty_wellFormed hc)
    · exact hafter _ h
  | stmt s => exact hafter s h
  | nothing => exact hbetween
  | broken braced =>
    cases braced with
    | false => exact hskipped
    | true => exact hbetween
  | refused =>
    simp only [atTop]
    split
    · exact .quiet idle_wellFormed
    · exact hskipped

section

variable {owner : Owner} {ss : Block} {rest : Stack} {resume : Ended → Move}
  (howner : owner.wellFormed = true) (hss : Stmt.allWellFormed ss = true)
  (hrest : Stack.WellFormed rest)
  (hresume : ∀ ended : Ended, ended.wellFormed = true → (resume ended).WellFormed)

include howner hss hrest

omit ht in
theorem block_wellFormed : Stack.WellFormed (.block owner ss :: rest) :=
  (Stack.wellFormed_cons _ _).2 ⟨by simp [Frame.wellFormed, howner, hss], hrest⟩

include hresume

omit ht in
theorem closed_wellFormed : (atBlock.closed t owner ss rest resume).WellFormed := by
  unfold atBlock.closed
  split
  · exact .quiet ⟨by simpa [Mode.wellFormed, Owner.wellFormed, hss] using howner, hrest⟩
  · exact hresume _ (Owner.expr_wellFormed howner hss)

theorem betweenStmts_wellFormed : (atBlock.between t owner rest resume ss).WellFormed := by
  unfold atBlock.between
  split
  · exact .quiet ⟨Owner.close_wellFormed howner hss, hrest⟩
  · split
    · exact hresume _ (Owner.expr_wellFormed howner hss)
    · exact startStmt_wellFormed ht (block_wellFormed howner hss hrest)

theorem afterStmt_wellFormed {s : Stmt} (hs : s.wellFormed = true) :
    (atBlock.afterStmt t owner ss rest resume s).WellFormed := by
  have hboth : Stmt.allWellFormed (ss ++ [s]) = true := by
    simp [Stmt.allWellFormed_append, Stmt.allWellFormed, hss, hs]
  unfold atBlock.afterStmt
  split
  · exact .quiet ⟨rfl, block_wellFormed howner hboth hrest⟩
  · exact betweenStmts_wellFormed ht howner hboth hrest hresume

theorem skipped_wellFormed : (atBlock.skipped t owner ss rest resume).WellFormed := by
  have hblock := block_wellFormed howner hss hrest
  unfold atBlock.skipped
  split
  · exact .quiet ⟨rfl, hblock⟩
  · split
    · exact betweenStmts_wellFormed ht howner hss hrest hresume
    · exact .quiet ⟨rfl, hblock⟩

theorem atBlock_wellFormed {ended : Ended} (h : ended.wellFormed = true) :
    (atBlock t owner ss rest resume ended).WellFormed := by
  cases ended with
  | expr e braced =>
    simp only [atBlock]
    split
    · next c hc =>
      exact .quiet (extendExpr_wellFormed h (block_wellFormed howner hss hrest) hc)
    · exact afterStmt_wellFormed ht howner hss hrest hresume h
  | stmt s => exact afterStmt_wellFormed ht howner hss hrest hresume h
  | nothing => exact betweenStmts_wellFormed ht howner hss hrest hresume
  | broken braced =>
    cases braced with
    | false => exact skipped_wellFormed ht howner hss hrest hresume
    | true => exact closed_wellFormed howner hss hrest hresume
  | refused => exact skipped_wellFormed ht howner hss hrest hresume

end

omit ht in
theorem fillHole_wellFormed {hole : Hole} {e : Expr} {braced : Bool} {rest : Stack}
    {resume : Ended → Move} (hhole : hole.wellFormed = true) (he : e.wellFormed = true)
    (hrest : Stack.WellFormed rest)
    (hresume : ∀ ended : Ended, ended.wellFormed = true → (resume ended).WellFormed) :
    (fillHole t hole e braced rest resume).WellFormed := by
  have hunclosed : (fillHole.unclosed t braced resume).WellFormed :=
    (hresume (.broken braced) rfl).withError _
  cases hole with
  | prefixOp o =>
    simp only [Hole.wellFormed] at hhole
    exact hresume _ (by simpa [Ended.wellFormed, Expr.wellFormed, he] using hhole)
  | infixOp o left =>
    simp only [Hole.wellFormed] at hhole
    exact hresume _ (by simpa [Ended.wellFormed, Expr.wellFormed, he] using hhole)
  | group =>
    simp only [fillHole]
    split
    · exact .quiet ⟨he, hrest⟩
    · exact hunclosed
  | condition =>
    simp only [fillHole]
    split
    · exact .quiet ⟨he, hrest⟩
    · exact hunclosed
  | argument f before =>
    simp only [Hole.wellFormed, Bool.and_eq_true] at hhole
    have harguments : Expr.allWellFormed (before ++ [e]) = true := by
      simp [Expr.allWellFormed_append, Expr.allWellFormed, hhole.2, he]
    simp only [fillHole]
    split
    · exact .quiet ⟨rfl, (Stack.wellFormed_cons _ _).2
        ⟨by simp [Frame.wellFormed, Hole.wellFormed, hhole.1, harguments], hrest⟩⟩
    · split
      · exact .quiet ⟨by simp [Mode.wellFormed, Expr.wellFormed, hhole.1, harguments], hrest⟩
      · exact hunclosed
  | bind name =>
    simp only [Hole.wellFormed] at hhole
    exact hresume _ (by simp [Ended.wellFormed, Stmt.wellFormed, hhole, he])
  | ret => exact hresume _ he

theorem settle_wellFormed {stack : Stack} (hstack : Stack.WellFormed stack) {ended : Ended}
    (h : ended.wellFormed = true) : (settle t stack ended).WellFormed := by
  induction stack generalizing ended with
  | nil => exact atTop_wellFormed ht h
  | cons frame rest ih =>
    obtain ⟨hframe, hrest⟩ := (Stack.wellFormed_cons _ _).1 hstack
    cases frame with
    | block owner ss =>
      simp only [Frame.wellFormed, Bool.and_eq_true] at hframe
      exact atBlock_wellFormed ht hframe.1 hframe.2 hrest (fun _ hended => ih hrest hended) h
    | hole hole =>
      cases ended with
      | expr e braced =>
        simp only [settle]
        split
        · next c hc => exact .quiet (extendExpr_wellFormed h hstack hc)
        · exact fillHole_wellFormed hframe h hrest (fun _ hended => ih hrest hended)
      | stmt s => exact ih hrest h
      | nothing => exact ih hrest h
      | broken braced => exact ih hrest h
      | refused => exact ih hrest h

theorem operand_wellFormed {stack : Stack} (hstack : Stack.WellFormed stack) :
    (operand t stack).WellFormed := by
  unfold operand
  split
  · next c hc => exact .quiet (startExpr_wellFormed ht hstack hc)
  · exact (settle_wellFormed ht hstack rfl).withError _

theorem missing_wellFormed (expected : Token.Kind) {stack : Stack}
    (hstack : Stack.WellFormed stack) : (missing expected t stack).WellFormed :=
  (settle_wellFormed ht hstack rfl).withError _

theorem expect_wellFormed (expected : Token) {stack : Stack} {next : Control}
    (hstack : Stack.WellFormed stack) (hnext : next.WellFormed) :
    (expect expected t stack next).WellFormed := by
  unfold expect
  split
  · exact .quiet hnext
  · exact missing_wellFormed ht _ hstack

theorem expectName_wellFormed {stack : Stack} {next : String → Control}
    (hstack : Stack.WellFormed stack)
    (hnext : ∀ name, isName name = true → (next name).WellFormed) :
    (expectName t stack next).WellFormed := by
  unfold expectName
  split
  · next name => exact .quiet (hnext name ht)
  · exact missing_wellFormed ht _ hstack

theorem step_wellFormed {control : Control} (h : control.WellFormed) :
    (control.step t).WellFormed := by
  obtain ⟨mode, stack⟩ := control
  obtain ⟨hmode, hstack⟩ := h
  have hhole : ∀ hole : Hole, hole.wellFormed = true →
      WellFormed ⟨.operand, .hole hole :: stack⟩ :=
    fun hole hh => ⟨rfl, (Stack.wellFormed_cons _ _).2 ⟨hh, hstack⟩⟩
  have hblock : ∀ owner : Owner, owner.wellFormed = true →
      WellFormed ⟨.statement, .block owner [] :: stack⟩ := by
    intro owner ho
    exact ⟨rfl, (Stack.wellFormed_cons _ _).2
      ⟨by simp [Frame.wellFormed, Stmt.allWellFormed, ho], hstack⟩⟩
  cases mode with
  | statement => exact settle_wellFormed ht hstack rfl
  | skip => exact settle_wellFormed ht hstack rfl
  | operand => exact operand_wellFormed ht hstack
  | operator e braced => exact settle_wellFormed ht hstack hmode
  | bindName => exact expectName_wellFormed ht hstack (fun name hname => ⟨hname, hstack⟩)
  | bindAssign name => exact expect_wellFormed ht _ hstack (hhole (.bind name) hmode)
  | returned =>
    simp only [step]
    split
    · exact settle_wellFormed ht hstack rfl
    · exact operand_wellFormed ht (hhole .ret rfl).2
  | condOpen => exact expect_wellFormed ht _ hstack (hhole .condition rfl)
  | consequenceOpen c => exact expect_wellFormed ht _ hstack (hblock (.consequence c) hmode)
  | consequenceEnd c a =>
    simp only [step]
    split
    · exact .quiet ⟨hmode, hstack⟩
    · exact settle_wellFormed ht hstack hmode
  | alternativeOpen c a => exact expect_wellFormed ht _ hstack (hblock (.alternative c a) hmode)
  | fnOpen => exact expect_wellFormed ht _ hstack ⟨rfl, hstack⟩
  | firstParam =>
    simp only [step]
    split
    · exact .quiet ⟨rfl, hstack⟩
    · exact expectName_wellFormed ht hstack
        (fun name hname => ⟨by simp [Mode.wellFormed, hname], hstack⟩)
  | param before =>
    refine expectName_wellFormed ht hstack (fun name hname => ⟨?_, hstack⟩)
    simp only [Mode.wellFormed] at hmode ⊢
    simp [hmode, hname]
  | paramEnd ps =>
    simp only [step]
    split
    · exact .quiet ⟨hmode, hstack⟩
    · exact expect_wellFormed ht _ hstack ⟨hmode, hstack⟩
  | bodyOpen ps => exact expect_wellFormed ht _ hstack (hblock (.body ps) hmode)
  | arguments f =>
    have hf : f.wellFormed = true := hmode
    simp only [step]
    split
    · exact .quiet ⟨by simp [Mode.wellFormed, Expr.wellFormed, Expr.allWellFormed, hf], hstack⟩
    · exact operand_wellFormed ht
        (hhole (.argument f []) (by simp [Hole.wellFormed, Expr.allWellFormed, hf])).2

end Settling

theorem run_wellFormed {ts : List Token} (hts : ∀ t ∈ ts, t.named = true) {control : Control}
    (h : control.WellFormed) : (control.run ts).WellFormed := by
  induction ts generalizing control with
  | nil => exact .quiet h
  | cons t ts ih =>
    have hstep := step_wellFormed (hts t (by simp)) h
    exact hstep.followedBy (ih (fun u hu => hts u (by simp [hu])) hstep.control)

end Control

theorem isLetter_nameChar {b : UInt8} (h : isLetter b = true) :
    isNameChar (Char.ofUInt8 b) = true := by
  simp only [isNameChar, isLetter, Bytes.val_ofUInt8, Bool.or_eq_true, Bool.and_eq_true,
    decide_eq_true_eq, beq_iff_eq, Char.le_def, UInt32.le_iff_toNat_le, UInt8.le_iff_toNat_le,
    Char.ext_iff, ← UInt32.toNat_inj, ← UInt8.toNat_inj, UInt8.toNat_toUInt32] at *
  simp only [Char.reduceVal, UInt32.reduceToNat, UInt8.reduceToNat] at *
  omega

theorem isName_toText {bytes : Bytes} (hne : bytes ≠ [])
    (hbytes : ∀ b ∈ bytes, isLetter b = true) (hword : Keyword.ofText? bytes.toText = none) :
    isName bytes.toText = true := by
  have hlist : bytes.toText.toList = bytes.map Char.ofUInt8 := by simp [Bytes.toText]
  have hchars : bytes.toText.toList.all isNameChar = true := by
    rw [hlist, List.all_eq_true]
    intro c hc
    obtain ⟨b, hb, rfl⟩ := List.mem_map.1 hc
    exact isLetter_nameChar (hbytes b hb)
  have hempty : bytes.toText.isEmpty = false := by
    simpa [← String.toList_eq_nil_iff, hlist] using hne
  simp [isName, hword, hchars, hempty]

namespace Token

theorem ofByte_named (byte : UInt8) : (ofByte byte).named = true := by
  unfold ofByte
  split <;> rfl

theorem joined_named {t u : Token} (h : t.joined? = some u) : u.named = true := by
  unfold joined? at h
  split at h <;> cases h <;> rfl

theorem scan_named (byte : UInt8) (rest : Bytes) : (scan byte rest).1.named = true := by
  unfold scan
  split
  · next hletter =>
    have hletters := takeWhile_run_all hletter rest
    simp only [ofWord]
    split
    · rfl
    · next hword => exact isName_toText (by simp) hletters hword
  · split
    · rfl
    · split
      · next token _ hjoined => exact joined_named hjoined
      · exact ofByte_named byte

theorem all_named (bytes : Bytes) : ∀ t ∈ all bytes, t.named = true := by
  induction h : bytes.length using Nat.strongRecOn generalizing bytes with
  | ind n ih =>
    rw [all_eq]
    split
    · simp
    · next byte rest hdrop =>
      intro t ht
      rcases List.mem_cons.1 ht with rfl | ht
      · exact scan_named byte rest
      · exact ih _ (h ▸ scan_length_lt hdrop) _ rfl t ht

end Token

theorem parse_wellFormed (lexer : Lexer) : (Parser.ofLexer lexer).parse.1.WellFormed := by
  have hnamed : ∀ t ∈ Token.all lexer.rest ++ [.eof], t.named = true := by
    intro t ht
    rcases List.mem_append.1 ht with hall | heof
    · exact Token.all_named _ t hall
    · rw [List.mem_singleton.1 heof]
      rfl
  exact (Control.run_wellFormed hnamed Control.idle_wellFormed).statements

end Monkey
