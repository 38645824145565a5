import Monkey.Parser
import Monkey.Parser.Lemmas

/-!
# The parser accepts its grammar

Tokens that derive a program are parsed to that program, without an error. The
induction follows the derivation. For each phrase it says what the parser does
when it is fed the tokens of the phrase and the token behind them, whatever is
open around it.
-/

set_option autoImplicit false

namespace Monkey.Control

def Starts (ts : List Token) (next : Token) (stack : Stack) (result : Move) : Prop :=
  ∃ t us c, ts = t :: us ∧ startExpr t stack = .ok c ∧ c.run (us ++ [next]) = result

def completed (next : Token) (ss : List Stmt) : Stack → Move
  | .block owner before :: rest => settle next (.block owner (before ++ ss) :: rest) .nothing
  | stack => ⟨(settle next stack .nothing).control, ss ++ (settle next stack .nothing).statements,
      (settle next stack .nothing).errors⟩

def Reads (next : Token) (ts : List Token) : Phrase → Prop
  | .atom e => ∀ stack, ∃ b, Starts ts next stack (settle next stack (.expr e b))
  | .chain k e => ∀ stack, Stack.level stack ≤ k →
      ∃ b, Starts ts next stack (settle next stack (.expr e b))
  | .expr k e => next.level ≤ k ∧ ∀ stack, Stack.level stack ≤ k →
      ∃ b, Starts ts next stack (settle next stack (.expr e b))
  | .arguments es => next = .rparen → (es = [] ∧ ts = []) ∨ ∀ f before stack,
      Starts ts next (.hole (.argument f before) :: stack)
        (.quiet ⟨.operator (.call f (before ++ es)) false, stack⟩)
  | .block ss => ∀ owner stack,
      run ⟨.statement, .block owner [] :: stack⟩ (ts ++ [next]) = step ⟨owner.close ss, stack⟩ next
  | .stmt s => ∀ stack, Stack.base stack = true →
      run ⟨.statement, stack⟩ (ts ++ [next]) = completed next [s] stack
  | .stmts ss => ∀ stack, Stack.base stack = true →
      run ⟨.statement, stack⟩ (ts ++ [next]) = completed next ss stack

theorem operand_starts {ts : List Token} {next : Token} {stack : Stack} {m : Move}
    (h : Starts ts next stack m) : run ⟨.operand, stack⟩ (ts ++ [next]) = m := by
  obtain ⟨t, us, c, rfl, hc, hm⟩ := h
  have hstep : step ⟨.operand, stack⟩ t = .quiet c := by simp [step, operand, hc]
  rw [List.cons_append, run_step hstep]
  exact hm

theorem statement_starts {ts : List Token} {next : Token} {stack : Stack} {m : Move}
    (hs : Stack.base stack = true) (h : Starts ts next stack m) :
    run ⟨.statement, stack⟩ (ts ++ [next]) = m := by
  obtain ⟨t, us, c, rfl, hc, hm⟩ := h
  have hne := startExpr_ne hc
  have hstep : step ⟨.statement, stack⟩ t = .quiet c := by
    rw [← startStmt_startExpr hc]
    exact settle_nothing hs hne.2.1 hne.2.2.1
  rw [List.cons_append, run_step hstep]
  exact hm

theorem settle_stmt {next : Token} {stack : Stack} (s : Stmt) (hs : Stack.base stack = true)
    (h : next ≠ .semicolon) : settle next stack (.stmt s) = completed next [s] stack := by
  match stack, hs with
  | [], _ =>
    simp [settle, atTop, atTop.afterStmt, h, completed, Move.withStatement]
  | .block owner before :: rest, _ =>
    simp [settle, atBlock, atBlock.afterStmt, h, completed]

theorem settle_semicolon {stack : Stack} (s : Stmt) (next : Token) (hs : Stack.base stack = true) :
    (settle .semicolon stack (.stmt s)).followedBy
        ((settle .semicolon stack (.stmt s)).control.run [next]) =
      completed next [s] stack := by
  match stack, hs with
  | [], _ =>
    simp [settle, atTop, atTop.afterStmt, completed, Move.followedBy, run_single, step, idle]
  | .block owner before :: rest, _ =>
    simp [settle, atBlock, atBlock.afterStmt, completed, Move.quiet, run_single, step,
      Move.followedBy]

theorem terminated {c : Control} {ts us : List Token} {next : Token} {stack : Stack} {s : Stmt}
    (hs : Stack.base stack = true) (hend : Terminated us next)
    (h : c.run (ts ++ [us.headD next]) = settle (us.headD next) stack (.stmt s)) :
    c.run (ts ++ us ++ [next]) = completed next [s] stack := by
  cases hend with
  | semicolon =>
    have := settle_semicolon s next hs
    simp only [List.headD_cons] at h
    rw [List.append_assoc, List.singleton_append, run_through, h, this]
  | bare _ hn =>
    simp only [List.headD_nil] at h
    rw [List.append_nil, h, settle_stmt s hs hn]

theorem settle_expr_stmt {t : Token} {stack : Stack} {e : Expr} {b : Bool}
    (hs : Stack.base stack = true) (ht : t.level ≤ 0) :
    settle t stack (.expr e b) = settle t stack (.stmt (.expr e)) := by
  match stack, hs with
  | [], _ => simp [settle, atTop, extendExpr_none ht]
  | .block owner before :: rest, _ => simp [settle, atBlock, extendExpr_none ht]

theorem run_params (stack : Stack) (n : String) (ps pre : List String) (us : List Token) :
    run ⟨.param pre, stack⟩ (paramTokens (n :: ps) ++ .rparen :: us) =
      run ⟨.bodyOpen (pre ++ n :: ps), stack⟩ us := by
  induction ps generalizing n pre with
  | nil => simp [paramTokens, run, step, expectName, expect, Move.quiet, Move.followedBy]
  | cons m ps ih =>
    have := ih m (pre ++ [n])
    simp only [paramTokens, List.cons_append, run, step, expectName, Move.quiet] at this ⊢
    simp only [if_true, Move.followedBy, List.nil_append]
    simpa using this

theorem run_fnOpen (stack : Stack) (ps : List String) (us : List Token) :
    run ⟨.fnOpen, stack⟩ (.lparen :: paramTokens ps ++ .rparen :: us) =
      run ⟨.bodyOpen ps, stack⟩ us := by
  have hopen : step ⟨.fnOpen, stack⟩ .lparen = .quiet ⟨.firstParam, stack⟩ := by simp [step, expect]
  rw [List.cons_append, run, hopen, quiet_followedBy]
  cases ps with
  | nil =>
    have : step ⟨.firstParam, stack⟩ .rparen = .quiet ⟨.bodyOpen [], stack⟩ := by simp [step]
    simp only [paramTokens, List.nil_append, Move.quiet]
    rw [run, this, quiet_followedBy]; rfl
  | cons n ps =>
    have h := run_params stack n ps [] us
    have hfirst : step ⟨.firstParam, stack⟩ (.ident n) = step ⟨.param [], stack⟩ (.ident n) := by
      simp [step, expectName]
    cases ps with
    | nil =>
      simp only [paramTokens, List.cons_append, run, Move.quiet] at h ⊢
      rw [hfirst]; simpa using h
    | cons m ps =>
      simp only [paramTokens, List.cons_append, run, Move.quiet] at h ⊢
      rw [hfirst]; simpa using h

theorem settle_expr_rparen (stack : Stack) (e : Expr) (b : Bool) :
    settle .rparen (.hole .group :: stack) (.expr e b) = .quiet ⟨.operator e false, stack⟩ := by
  simp [settle, extendExpr?, fillHole]

theorem level_base {stack : Stack} (hs : Stack.base stack = true) : Stack.level stack ≤ 0 := by
  match stack, hs with
  | [], _ => exact Nat.le_refl 0
  | .block owner before :: rest, _ => exact Nat.le_refl 0

theorem completed_nil {stack : Stack} (next : Token) (hs : Stack.base stack = true) :
    step ⟨.statement, stack⟩ next = completed next [] stack := by
  match stack, hs with
  | [], _ => simp [completed, step]
  | .block owner before :: rest, _ => simp [completed, step]

section

variable {next : Token} {ts us : List Token} {e : Expr}

/-! ### Operands -/

theorem reads_prefixOp {o : Operator} (ho : o = .not ∨ o = .minus)
    (h : Reads next ts (.expr 5 e)) : Reads next (.op o :: ts) (.atom (.prefixOp o e)) := by
  intro stack
  obtain ⟨hn, h⟩ := h
  obtain ⟨b, hb⟩ := h (.hole (.prefixOp o) :: stack) (Nat.le_refl 5)
  refine ⟨b, .op o, ts, ⟨.operand, .hole (.prefixOp o) :: stack⟩, rfl, ?_, ?_⟩
  · rcases ho with rfl | rfl <;> rfl
  · rw [operand_starts hb, settle_hole _ (.prefixOp o) hn (Nat.le_refl 5)]
    rfl

theorem reads_group (h : Reads .rparen ts (.expr 0 e)) :
    Reads next (.lparen :: ts ++ [.rparen]) (.atom e) := by
  intro stack
  obtain ⟨b, hb⟩ := h.2 (.hole .group :: stack) (Nat.le_refl 0)
  refine ⟨false, .lparen, ts ++ [.rparen], ⟨.operand, .hole .group :: stack⟩, rfl, rfl, ?_⟩
  rw [settle_expr_rparen] at hb
  rw [List.append_assoc, List.singleton_append, run_quiet (operand_starts hb), run_single]
  rfl

theorem run_condition (h : Reads .rparen ts (.expr 0 e)) (stack : Stack) (us : List Token) :
    run ⟨.condOpen, stack⟩ (.lparen :: (ts ++ .rparen :: .lbrace :: us)) =
      run ⟨.statement, .block (.consequence e) [] :: stack⟩ us := by
  obtain ⟨b, hb⟩ := h.2 (.hole .condition :: stack) (Nat.le_refl 0)
  have hopen : step ⟨.condOpen, stack⟩ .lparen = .quiet ⟨.operand, .hole .condition :: stack⟩ := by
    simp [step, expect]
  have hclose : settle .rparen (.hole .condition :: stack) (.expr e b) =
      .quiet ⟨.consequenceOpen e, stack⟩ := by
    simp [settle, extendExpr?, fillHole]
  have hbrace : step ⟨.consequenceOpen e, stack⟩ .lbrace =
      .quiet ⟨.statement, .block (.consequence e) [] :: stack⟩ := by
    simp [step, expect]
  rw [hclose] at hb
  rw [run_step hopen, run_quiet (operand_starts hb), run_step hbrace]

theorem reads_cond {a : Block} (hc : Reads .rparen ts (.expr 0 e))
    (ha : Reads next us (.block a)) (hnext : next ≠ .keyword .otherwise) :
    Reads next (.keyword .cond :: .lparen :: ts ++ .rparen :: .lbrace :: us)
      (.atom (.cond e a none)) := by
  intro stack
  refine ⟨true, .keyword .cond, .lparen :: (ts ++ .rparen :: .lbrace :: us),
    ⟨.condOpen, stack⟩, by simp, rfl, ?_⟩
  simp only [List.cons_append, List.append_assoc]
  rw [run_condition hc, ha]
  simp [step, Owner.close, hnext]

theorem reads_condElse {a b : Block} {vs : List Token} (hc : Reads .rparen ts (.expr 0 e))
    (ha : Reads (.keyword .otherwise) us (.block a)) (hb : Reads next vs (.block b)) :
    Reads next (.keyword .cond :: .lparen :: ts ++ .rparen :: .lbrace :: us ++
      .keyword .otherwise :: .lbrace :: vs) (.atom (.cond e a (some b))) := by
  intro stack
  refine ⟨true, .keyword .cond,
    .lparen :: (ts ++ .rparen :: .lbrace :: (us ++ .keyword .otherwise :: .lbrace :: vs)),
    ⟨.condOpen, stack⟩, by simp, rfl, ?_⟩
  have hbrace : step ⟨.alternativeOpen e a, stack⟩ .lbrace =
      .quiet ⟨.statement, .block (.alternative e a) [] :: stack⟩ := by simp [step, expect]
  have helse : run ⟨.statement, .block (.consequence e) [] :: stack⟩
      (us ++ [.keyword .otherwise]) = .quiet ⟨.alternativeOpen e a, stack⟩ := by
    rw [ha]
    simp [step, Owner.close]
  simp only [List.cons_append, List.append_assoc]
  rw [run_condition hc, run_quiet helse, run_step hbrace, hb]
  rfl

theorem reads_fn (ps : List String) {body : Block} (h : Reads next ts (.block body)) :
    Reads next (.keyword .fn :: .lparen :: paramTokens ps ++ .rparen :: .lbrace :: ts)
      (.atom (.fn ps body)) := by
  intro stack
  refine ⟨true, .keyword .fn, .lparen :: (paramTokens ps ++ .rparen :: .lbrace :: ts),
    ⟨.fnOpen, stack⟩, by simp, rfl, ?_⟩
  have hbrace : step ⟨.bodyOpen ps, stack⟩ .lbrace =
      .quiet ⟨.statement, .block (.body ps) [] :: stack⟩ := by simp [step, expect]
  have hparams := run_fnOpen stack ps (.lbrace :: ts ++ [next])
  simp only [List.cons_append, List.append_assoc] at hparams ⊢
  rw [hparams, run_step hbrace, h]
  rfl

/-! ### Operations and calls -/

theorem reads_infixOp {level : Nat} {o : Operator} {f : Expr} (ho : level < o.level)
    (he : Reads (.op o) ts (.chain level e)) (hf : Reads next us (.expr o.level f)) :
    Reads next (ts ++ .op o :: us) (.chain level (.infixOp o e f)) := by
  intro stack hstack
  obtain ⟨b, hb⟩ := he stack hstack
  rw [settle_op (Nat.lt_of_le_of_lt hstack ho)] at hb
  obtain ⟨d, hd⟩ := hf.2 (.hole (.infixOp o e) :: stack) (Nat.le_refl _)
  obtain ⟨t, ts, c, rfl, hc, hm⟩ := hb
  refine ⟨d, t, ts ++ .op o :: us, c, rfl, hc, ?_⟩
  rw [List.append_assoc, List.cons_append, run_quiet hm, operand_starts hd,
    settle_hole _ (.infixOp o e) hf.1 (level_le_five o)]
  rfl

theorem reads_lastArgument (h : Reads .rparen ts (.expr 0 e)) :
    Reads .rparen ts (.arguments [e]) := by
  refine fun _ => .inr fun f before stack => ?_
  obtain ⟨b, hb⟩ := h.2 (.hole (.argument f before) :: stack) (Nat.le_refl 0)
  rw [settle_hole .rparen (.argument f before) (Nat.le_refl 0) (Nat.zero_le 5)] at hb
  exact hb

theorem reads_argument {f : Expr} {es : List Expr} (he : Reads .comma ts (.expr 0 e))
    (hes : Reads .rparen us (.arguments (f :: es))) :
    Reads .rparen (ts ++ .comma :: us) (.arguments (e :: f :: es)) := by
  refine fun _ => .inr fun g before stack => ?_
  obtain ⟨b, hb⟩ := he.2 (.hole (.argument g before) :: stack) (Nat.le_refl 0)
  rw [settle_hole .comma (.argument g before) (Nat.le_refl 0) (Nat.zero_le 5)] at hb
  obtain ⟨t, vs, c, rfl, hc, hm⟩ := hb
  rcases hes rfl with ⟨h, _⟩ | hrest
  · cases h
  · have hr := operand_starts (hrest g (before ++ [e]) stack)
    refine ⟨t, vs ++ .comma :: us, c, rfl, hc, ?_⟩
    rw [List.append_assoc, List.cons_append, run_quiet hm, hr]
    simp

theorem run_arguments {es : List Expr} (h : Reads .rparen ts (.arguments es)) (stack : Stack)
    (f : Expr) :
    run ⟨.arguments f, stack⟩ (ts ++ [.rparen]) = .quiet ⟨.operator (.call f es) false, stack⟩ := by
  rcases h rfl with ⟨rfl, rfl⟩ | hstarts
  · have hclose : step ⟨.arguments f, stack⟩ .rparen =
        .quiet ⟨.operator (.call f []) false, stack⟩ := by simp [step]
    rw [List.nil_append, run_single, hclose]
  · obtain ⟨t, us, c, rfl, hc, hm⟩ := hstarts f [] stack
    have hfirst : step ⟨.arguments f, stack⟩ t = .quiet c := by
      simp [step, (startExpr_ne hc).2.2.2, operand, hc]
    rw [List.cons_append, run_step hfirst, hm]
    rfl

theorem reads_call {level : Nat} {es : List Expr} (he : Reads .lparen ts (.chain level e))
    (hes : Reads .rparen us (.arguments es)) :
    Reads next (ts ++ .lparen :: us ++ [.rparen]) (.chain level (.call e es)) := by
  intro stack hstack
  obtain ⟨b, hb⟩ := he stack hstack
  rw [settle_lparen] at hb
  obtain ⟨t, ts, c, rfl, hc, hm⟩ := hb
  refine ⟨false, t, ts ++ .lparen :: us ++ [.rparen], c, by simp, hc, ?_⟩
  have hcall : ts ++ .lparen :: us ++ [.rparen] ++ [next] =
      ts ++ .lparen :: (us ++ .rparen :: [next]) := by simp
  rw [hcall, run_quiet hm, run_quiet (run_arguments hes stack e), run_single]
  rfl

/-! ### Blocks -/

theorem reads_closed {ss : List Stmt} (h : Reads .rbrace ts (.stmts ss)) :
    Reads next (ts ++ [.rbrace]) (.block ss) := by
  intro owner stack
  have hrun := h (.block owner [] :: stack) rfl
  have hclose : completed .rbrace ss (.block owner [] :: stack) =
      .quiet ⟨owner.close ss, stack⟩ := by
    simp [completed, settle, atBlock, atBlock.between]
  rw [hclose] at hrun
  rw [List.append_assoc, List.singleton_append, run_quiet hrun, run_single]

theorem reads_unclosed {ss : List Stmt} (h : Reads .eof ts (.stmts ss)) :
    Reads .eof ts (.block ss) := by
  intro owner stack
  rw [h (.block owner [] :: stack) rfl]
  simp only [completed, settle, atBlock, atBlock.between, List.nil_append, step]
  cases owner <;> simp [Owner.close, Owner.expr]

/-! ### Statements -/

theorem step_keyword {stack : Stack} (hs : Stack.base stack = true) :
    step ⟨.statement, stack⟩ (.keyword .bind) = .quiet ⟨.bindName, stack⟩ ∧
      step ⟨.statement, stack⟩ (.keyword .ret) = .quiet ⟨.returned, stack⟩ :=
  ⟨settle_nothing hs (by simp) (by simp), settle_nothing hs (by simp) (by simp)⟩

theorem reads_bind (name : String) (h : Reads (us.headD next) ts (.expr 0 e))
    (hend : Terminated us next) :
    Reads next (.keyword .bind :: .ident name :: .assign :: ts ++ us) (.stmt (.bind name e)) := by
  intro stack hs
  have hname : step ⟨.bindName, stack⟩ (.ident name) = .quiet ⟨.bindAssign name, stack⟩ := rfl
  have hassign : step ⟨.bindAssign name, stack⟩ .assign =
      .quiet ⟨.operand, .hole (.bind name) :: stack⟩ := by simp [step, expect]
  obtain ⟨b, hb⟩ := h.2 (.hole (.bind name) :: stack) (Nat.le_refl 0)
  simp only [List.cons_append]
  rw [run_step (step_keyword hs).1, run_step hname, run_step hassign]
  apply terminated hs hend
  rw [operand_starts hb, settle_hole _ (.bind name) h.1 (Nat.zero_le 5)]
  rfl

theorem reads_ret (h : Reads (us.headD next) ts (.expr 0 e)) (hend : Terminated us next) :
    Reads next (.keyword .ret :: ts ++ us) (.stmt (.ret (some e))) := by
  intro stack hs
  obtain ⟨b, hb⟩ := h.2 (.hole .ret :: stack) (Nat.le_refl 0)
  rw [settle_hole _ .ret h.1 (Nat.zero_le 5)] at hb
  have hvalue : run ⟨.returned, stack⟩ (ts ++ [us.headD next]) =
      settle (us.headD next) stack (.stmt (.ret (some e))) := by
    obtain ⟨t, vs, c, rfl, hc, hm⟩ := hb
    obtain ⟨hsemi, hbrace, heof, _⟩ := startExpr_ne hc
    have hfirst : step ⟨.returned, stack⟩ t = .quiet c := by
      simp [step, hsemi, hbrace, heof, operand, hc]
    rw [List.cons_append, run_step hfirst, hm]
    rfl
  rw [List.cons_append, List.cons_append, run_step (step_keyword hs).2]
  exact terminated hs hend hvalue

theorem reads_retSemicolon : Reads next [.keyword .ret, .semicolon] (.stmt (.ret none)) := by
  intro stack hs
  have hstop : step ⟨.returned, stack⟩ .semicolon =
      settle .semicolon stack (.stmt (.ret none)) := by simp [step]
  simp only [List.cons_append, List.nil_append]
  rw [run_step (step_keyword hs).2, run, hstop]
  exact settle_semicolon _ _ hs

theorem reads_retOpen (h : next = .rbrace ∨ next = .eof) :
    Reads next [.keyword .ret] (.stmt (.ret none)) := by
  intro stack hs
  have hstop : step ⟨.returned, stack⟩ next = settle next stack (.stmt (.ret none)) := by
    rcases h with rfl | rfl <;> simp [step]
  simp only [List.cons_append, List.nil_append]
  rw [run_step (step_keyword hs).2, run_single, hstop]
  exact settle_stmt _ hs (by rcases h with rfl | rfl <;> simp)

theorem reads_expr (h : Reads (us.headD next) ts (.expr 0 e)) (hend : Terminated us next) :
    Reads next (ts ++ us) (.stmt (.expr e)) := by
  intro stack hs
  obtain ⟨b, hb⟩ := h.2 stack (level_base hs)
  apply terminated hs hend
  rw [statement_starts hs hb, settle_expr_stmt hs h.1]

theorem reads_nil : Reads next [] (.stmts []) := by
  intro stack hs
  rw [List.nil_append, run_single]
  exact completed_nil next hs

theorem reads_cons {s : Stmt} {ss : List Stmt}
    (hstmt : Reads (us.headD next) ts (.stmt s)) (hstmts : Reads next us (.stmts ss)) :
    Reads next (ts ++ us) (.stmts (s :: ss)) := by
  intro stack hs
  have hrest : run ⟨.statement, stack⟩ (ts ++ us ++ [next]) =
      (completed (us.headD next) [s] stack).followedBy
        ((completed (us.headD next) [s] stack).control.run (us ++ [next]).tail) := by
    rw [← hstmt stack hs, List.append_assoc]
    cases us with
    | nil => exact (followedBy_quiet _).symm
    | cons u us => exact run_through _ _ _ _
  have hrun : ∀ control : Control, control.run (us ++ [next]) =
      (control.step (us.headD next)).followedBy
        ((control.step (us.headD next)).control.run (us ++ [next]).tail) := by
    intro control
    cases us <;> rfl
  rw [hrest]
  match stack, hs with
  | [], _ =>
    have htail := hstmts [] rfl
    rw [hrun] at htail
    simp only [completed, Move.followedBy, step, Move.mk.injEq] at htail ⊢
    refine ⟨htail.1, ?_, htail.2.2⟩
    rw [List.append_assoc, htail.2.1]
    rfl
  | .block owner before :: rest, _ =>
    have htail := hstmts (.block owner (before ++ [s]) :: rest) rfl
    rw [hrun] at htail
    simp only [completed, step, List.append_assoc, List.singleton_append] at htail ⊢
    exact htail

end

theorem derives_reads {p : Phrase} {ts : List Token} {next : Token} (h : Derives p ts next) :
    Reads next ts p := by
  induction h with
  | ident name next => exact fun stack => ⟨false, _, [], _, rfl, rfl, run_single _ _⟩
  | int digits value next h =>
    exact fun stack => ⟨false, _, [], _, rfl, by simp only [startExpr, h]; rfl, run_single _ _⟩
  | bool value next => exact fun stack => ⟨false, _, [], _, rfl, rfl, run_single _ _⟩
  | prefixOp o e ts next ho _ ih => exact reads_prefixOp ho ih
  | group e ts next _ ih => exact reads_group ih
  | cond c a cs as next _ _ hnext ihc iha => exact reads_cond ihc iha hnext
  | condElse c a b cs as bs next _ _ _ ihc iha ihb => exact reads_condElse ihc iha ihb
  | fn ps body ts next _ ih => exact reads_fn ps ih
  | start level e ts next _ ih => exact fun stack _ => ih stack
  | infixOp level o a b as bs next ho _ _ iha ihb => exact reads_infixOp ho iha ihb
  | call level f es fs ts next _ _ ihf ihes => exact reads_call ihf ihes
  | whole level e ts next _ hnext ih => exact ⟨hnext, ih⟩
  | noArgument next => exact fun _ => .inl ⟨rfl, rfl⟩
  | lastArgument e ts next _ ih =>
    rintro rfl
    exact reads_lastArgument ih rfl
  | argument e f es ts us next _ _ ih ihs =>
    rintro rfl
    exact reads_argument ih ihs rfl
  | closed ss ts next _ ih => exact reads_closed ih
  | unclosed ss ts _ ih => exact reads_unclosed ih
  | bind name e ts us next _ hend ih => exact reads_bind name ih hend
  | ret e ts us next _ hend ih => exact reads_ret ih hend
  | retSemicolon next => exact reads_retSemicolon
  | retOpen next h => exact reads_retOpen h
  | expr e ts us next _ hend ih => exact reads_expr ih hend
  | nil next => exact reads_nil
  | cons s ss ts us next _ _ ih ihs => exact reads_cons ih ihs

end Monkey.Control

namespace Monkey

theorem parseProgram_of_derives {tokens : List Token} {program : Program}
    (h : program.DerivedFrom tokens) : (Parser.ofTokens tokens).parseProgram = .ok program := by
  have hrun : Control.idle.run (tokens ++ [.eof]) = ⟨.idle, program, []⟩ := by
    have hreads := Control.derives_reads h [] rfl
    simp only [Control.completed] at hreads
    rw [Control.idle, hreads]
    simp [Control.settle, Control.atTop, Control.atTop.between, Move.quiet, Control.idle]
  simp [Parser.parseProgram, Parser.parse, Parser.ofTokens, hrun]

end Monkey
