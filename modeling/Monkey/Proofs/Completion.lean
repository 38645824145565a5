import Monkey.Parser
import Monkey.Proofs.ParserMoves
import Monkey.Proofs.ParserSoundness

/-!
# Incomplete input

As long as there is no error, what has been read can be completed: from every
control there is a way on that fills and closes all that is open. So an error
is about the end of input exactly if the input was on its way to a program, and
any other first error stays the first one whatever follows.
-/

set_option autoImplicit false

namespace Monkey

def ParseError.atEnd : ParseError → Bool
  | unexpected _ found => found == .eof
  | noExpression found => found == .eof
  | integerTooLarge _ => false

def Hole.closing : Hole → List Token
  | .group | .argument _ _ => [.rparen]
  | .condition => [.rparen, .lbrace, .rbrace]
  | _ => []

def Stack.closing : Stack → List Token
  | [] => []
  | .hole hole :: rest => hole.closing ++ Stack.closing rest
  | .block _ _ :: rest => .rbrace :: Stack.closing rest

/-- A way on from a mode to the end of the expression or the statement it is in. -/
def Mode.completion : Mode → List Token
  | .statement | .skip | .operator _ _ | .consequenceEnd _ _ => []
  | .operand | .returned => [.int "0"]
  | .bindName => [.ident "x", .assign, .int "0"]
  | .bindAssign _ => [.assign, .int "0"]
  | .condOpen => [.lparen, .int "0", .rparen, .lbrace, .rbrace]
  | .consequenceOpen _ | .alternativeOpen _ _ | .bodyOpen _ => [.lbrace, .rbrace]
  | .fnOpen => [.lparen, .rparen, .lbrace, .rbrace]
  | .firstParam | .paramEnd _ => [.rparen, .lbrace, .rbrace]
  | .param _ => [.ident "x", .rparen, .lbrace, .rbrace]
  | .arguments _ => [.rparen]

def Control.completion (control : Control) : List Token :=
  control.mode.completion ++ Stack.closing control.stack

def Stack.Fits : Stack → Prop
  | [] => True
  | .hole hole :: rest => hole.Fits rest ∧ Stack.Fits rest
  | .block _ _ :: rest => Stack.Fits rest

def Ended.Fits (stack : Stack) : Ended → Prop
  | .expr _ _ => True
  | .stmt _ | .nothing => Stack.base stack = true
  | .broken _ | .refused => False

def Mode.Fits (stack : Stack) : Mode → Prop
  | .statement | .bindName | .bindAssign _ | .returned => Stack.base stack = true
  | .skip => False
  | _ => True

theorem ParseError.Blames.atEnd_iff {error : ParseError} {t : Token} (h : error.Blames t) :
    error.atEnd = true ↔ t = .eof := by
  have hkind : t.kind = .eof ↔ t = .eof := by cases t <;> simp [Token.kind]
  cases error with
  | unexpected expected found => cases h; simpa [ParseError.atEnd] using hkind
  | noExpression found => cases h; simpa [ParseError.atEnd] using hkind
  | integerTooLarge digits => cases h; simp [ParseError.atEnd]

theorem Within.fits {done : List Stmt} {stack : Stack} {ts : List Token} {first : Token}
    (h : Within done stack ts first) : Stack.Fits stack := by
  induction h with
  | top => trivial
  | block owner ss rest os us ts first _ _ _ ih => exact ih
  | hole hole rest os us first _ _ hfits ih => exact ⟨hfits, ih⟩

theorem Mode.After.fits {stack : Stack} {mode : Mode} {us : List Token} (h : mode.After stack us) :
    mode.Fits stack := by
  cases mode with
  | statement | bindName | bindAssign | returned => exact h.1
  | skip => exact h
  | _ => trivial

theorem Stack.closing_head (stack : Stack) : ∃ t ts, Stack.closing stack ++ [.eof] = t :: ts ∧
    (t = .rparen ∨ t = .rbrace ∨ t = .eof) := by
  induction stack with
  | nil => exact ⟨.eof, [], rfl, by simp⟩
  | cons frame rest ih =>
    cases frame with
    | block owner ss => exact ⟨.rbrace, _, rfl, by simp⟩
    | hole hole =>
      cases hole with
      | group | condition | argument => exact ⟨.rparen, _, rfl, by simp⟩
      | prefixOp | infixOp | bind | ret => exact ih

namespace Control

def Resumed (stack : Stack) (ended : Ended) (ts : List Token) : Prop :=
  ∃ t us, ts = t :: us ∧ (settle t stack ended).errors = [] ∧
    ((settle t stack ended).control.run us).errors = []

theorem run_errors {control : Control} {t : Token} {ts : List Token} {stack : Stack}
    {ended : Ended} (hstep : control.step t = settle t stack ended)
    (h : Resumed stack ended (t :: ts)) : (control.run (t :: ts)).errors = [] := by
  obtain ⟨u, us, hts, hsettle, hrun⟩ := h
  cases hts
  rw [run, hstep]
  exact List.append_eq_nil_iff.2 ⟨hsettle, hrun⟩

theorem quiet_errors {control next : Control} {t : Token} {ts : List Token}
    (hstep : control.step t = .quiet next) (h : (next.run ts).errors = []) :
    (control.run (t :: ts)).errors = [] := by
  rw [run_step hstep]
  exact h

/-- The stack can be closed behind everything that may end in front of it. -/
def Closes (stack : Stack) : Prop :=
  ∀ ended : Ended, ended.Fits stack → Resumed stack ended (Stack.closing stack ++ [.eof])

section

variable {stack : Stack}

theorem Closes.operator (h : Closes stack) (e : Expr) (braced : Bool) :
    (run ⟨.operator e braced, stack⟩ (Stack.closing stack ++ [.eof])).errors = [] := by
  have hended := h (.expr e braced) trivial
  obtain ⟨t, ts, hts, -⟩ := Stack.closing_head stack
  rw [hts] at hended ⊢
  exact run_errors rfl hended

theorem Closes.close (h : Closes stack) (owner : Owner) (ss : Block) :
    (run ⟨owner.close ss, stack⟩ (Stack.closing stack ++ [.eof])).errors = [] := by
  cases owner with
  | consequence c =>
    have hended := h (.expr (.cond c ss none) true) trivial
    obtain ⟨t, ts, hts, ht⟩ := Stack.closing_head stack
    rw [hts] at hended ⊢
    have helse : t ≠ .keyword .otherwise := by rintro rfl; simp at ht
    exact run_errors (by simp [step, Owner.close, helse]) hended
  | alternative c a => exact h.operator _ true
  | body ps => exact h.operator _ true

theorem Closes.block (h : Closes stack) (owner : Owner) (ss : Block) :
    Closes (.block owner ss :: stack) := by
  intro ended hended
  have hclose : ∀ us : Block, settle .rbrace (.block owner ss :: stack) ended =
      .quiet ⟨owner.close us, stack⟩ →
      Resumed (.block owner ss :: stack) ended (.rbrace :: (Stack.closing stack ++ [.eof])) := by
    intro us hsettle
    refine ⟨.rbrace, _, rfl, ?_, ?_⟩
    · rw [hsettle]; rfl
    · rw [hsettle]; exact h.close owner us
  cases ended with
  | expr e braced => exact hclose (ss ++ [.expr e]) rfl
  | stmt s => exact hclose (ss ++ [s]) rfl
  | nothing => exact hclose ss rfl
  | broken braced => exact hended.elim
  | refused => exact hended.elim

theorem Closes.empty (h : Closes stack) (owner : Owner) :
    (run ⟨.statement, .block owner [] :: stack⟩
      (.rbrace :: (Stack.closing stack ++ [.eof]))).errors = [] :=
  run_errors rfl (h.block owner [] .nothing rfl)

theorem Resumed.pass {hole : Hole} {e : Expr} {braced : Bool} {ended : Ended} {ts : List Token}
    (hhead : ∃ t us, ts = t :: us ∧ (t = .rparen ∨ t = .rbrace ∨ t = .eof))
    (hfill : ∀ t resume, fillHole t hole e braced stack resume = resume ended)
    (h : Resumed stack ended ts) : Resumed (.hole hole :: stack) (.expr e braced) ts := by
  obtain ⟨t, us, rfl, ht⟩ := hhead
  obtain ⟨_, _, hts, hsettle, hrun⟩ := h
  cases hts
  have hextend : extendExpr? t hole.level e (.hole hole :: stack) = none := by
    rcases ht with rfl | rfl | rfl <;> rfl
  have hboth : settle t (.hole hole :: stack) (.expr e braced) = settle t stack ended := by
    simp only [settle, hextend, hfill]
  refine ⟨t, us, rfl, ?_, ?_⟩
  · rw [hboth]; exact hsettle
  · rw [hboth]; exact hrun

theorem Closes.hole (h : Closes stack) (hole : Hole) (hfits : hole.Fits stack) :
    Closes (.hole hole :: stack) := by
  intro ended hended
  obtain ⟨t, ts, hts, ht⟩ := Stack.closing_head stack
  have hhead : ∃ t us, Stack.closing stack ++ [.eof] = t :: us ∧
      (t = .rparen ∨ t = .rbrace ∨ t = .eof) := ⟨t, ts, hts, ht⟩
  cases ended with
  | expr e braced =>
    cases hole with
    | prefixOp o => exact .pass hhead (fun _ _ => rfl) (h _ trivial)
    | infixOp o left => exact .pass hhead (fun _ _ => rfl) (h _ trivial)
    | group => exact ⟨.rparen, _, rfl, rfl, h.operator e false⟩
    | condition =>
      exact ⟨.rparen, _, rfl, rfl, quiet_errors rfl (h.empty (.consequence e))⟩
    | argument f before => exact ⟨.rparen, _, rfl, rfl, h.operator _ false⟩
    | bind name => exact .pass hhead (fun _ _ => rfl) (h (.stmt (.bind name e)) hfits)
    | ret => exact .pass hhead (fun _ _ => rfl) (h (.stmt (.ret (some e))) hfits)
  | stmt s => cases hended
  | nothing => cases hended
  | broken braced => exact hended.elim
  | refused => exact hended.elim

end

theorem closes_of_fits {stack : Stack} (h : Stack.Fits stack) : Closes stack := by
  induction stack with
  | nil =>
    intro ended hended
    cases ended with
    | expr | stmt | nothing => exact ⟨.eof, [], rfl, rfl, rfl⟩
    | broken | refused => exact hended.elim
  | cons frame rest ih =>
    cases frame with
    | block owner ss => exact (ih h).block owner ss
    | hole hole => exact (ih h.2).hole hole h.1

theorem run_completion {control : Control} (hstack : Stack.Fits control.stack)
    (hmode : control.mode.Fits control.stack) :
    (control.run (control.completion ++ [.eof])).errors = [] := by
  obtain ⟨mode, stack⟩ := control
  have hcloses : Closes stack := closes_of_fits hstack
  have hzero : ∀ {above : Stack}, Closes above →
      (run ⟨.operand, above⟩ (.int "0" :: (Stack.closing above ++ [.eof]))).errors = [] :=
    fun h => quiet_errors rfl (h.operator (.int 0) false)
  have hblock : ∀ owner : Owner, (run ⟨.statement, .block owner [] :: stack⟩
      (.rbrace :: (Stack.closing stack ++ [.eof]))).errors = [] := hcloses.empty
  have hbody : ∀ ps : List String, (run ⟨.bodyOpen ps, stack⟩
      (.lbrace :: .rbrace :: (Stack.closing stack ++ [.eof]))).errors = [] :=
    fun ps => quiet_errors rfl (hblock (.body ps))
  cases mode with
  | statement =>
    obtain ⟨t, ts, hts, -⟩ := Stack.closing_head stack
    have hnothing := hcloses .nothing hmode
    simp only [completion, Mode.completion, List.nil_append]
    rw [hts] at hnothing ⊢
    exact run_errors rfl hnothing
  | skip => exact hmode.elim
  | operand => exact hzero hcloses
  | operator e braced => exact hcloses.operator e braced
  | bindName =>
    exact quiet_errors rfl (quiet_errors rfl (hzero (hcloses.hole (.bind "x") hmode)))
  | bindAssign name => exact quiet_errors rfl (hzero (hcloses.hole (.bind name) hmode))
  | returned => exact quiet_errors rfl ((hcloses.hole .ret hmode).operator (.int 0) false)
  | condOpen => exact quiet_errors rfl (hzero (hcloses.hole .condition trivial))
  | consequenceOpen c => exact quiet_errors rfl (hblock _)
  | consequenceEnd c a => exact hcloses.close (.consequence c) a
  | alternativeOpen c a => exact quiet_errors rfl (hblock _)
  | fnOpen => exact quiet_errors rfl (quiet_errors rfl (hbody []))
  | firstParam => exact quiet_errors rfl (hbody [])
  | param before => exact quiet_errors rfl (quiet_errors rfl (hbody _))
  | paramEnd ps => exact quiet_errors rfl (hbody ps)
  | bodyOpen ps => exact hbody ps
  | arguments f => exact quiet_errors rfl (hcloses.operator (.call f []) false)

/-- Behind tokens without errors there is always a way on. -/
theorem completion_of_run {ts : List Token} (heof : .eof ∉ ts)
    (h : (idle.run ts).errors = []) :
    (idle.run (ts ++ ((idle.run ts).control.completion ++ [.eof]))).errors = [] := by
  obtain ⟨os, us, -, hwithin, hmode⟩ := run_after heof idle_after h
  have hrun := run_completion (hwithin .eof).fits hmode.fits
  rw [run_append]
  exact List.append_eq_nil_iff.2 ⟨h, hrun⟩

theorem completion_ne_eof (control : Control) : .eof ∉ control.completion := by
  have hstack : .eof ∉ Stack.closing control.stack := by
    induction control.stack with
    | nil => simp [Stack.closing]
    | cons frame rest ih =>
      cases frame with
      | block owner ss => simpa [Stack.closing] using ih
      | hole hole => cases hole <;> simpa [Stack.closing, Hole.closing] using ih
  have hmode : .eof ∉ control.mode.completion := by
    cases control.mode <;> simp [Mode.completion]
  simp [completion, hstack, hmode]

theorem run_blames (control : Control) (ts : List Token) :
    ∀ error ∈ (control.run ts).errors, ∃ t ∈ ts, error.Blames t := by
  induction ts generalizing control with
  | nil => exact fun _ h => nomatch h
  | cons t ts ih =>
    intro error herror
    rcases List.mem_append.1 herror with hstep | hrun
    · exact ⟨t, List.mem_cons_self, step_blames control t error hstep⟩
    · obtain ⟨u, hu, hblames⟩ := ih _ error hrun
      exact ⟨u, List.mem_cons_of_mem t hu, hblames⟩

end Control

theorem parseProgram_ok_iff (ts : List Token) :
    (∃ program, (Parser.ofTokens ts).parseProgram = .ok program) ↔
      (Control.idle.run (ts ++ [.eof])).errors = [] := by
  have hparse : (Parser.ofTokens ts).parseProgram =
      if (Control.idle.run (ts ++ [.eof])).errors.isEmpty then
        .ok (Control.idle.run (ts ++ [.eof])).statements
      else .error (Control.idle.run (ts ++ [.eof])).errors := rfl
  rw [hparse]
  cases (Control.idle.run (ts ++ [.eof])).errors with
  | nil => simp
  | cons error errors => simp

/-- The first error is about the end of input exactly if something can follow
that makes the input a program. Any other first error stays whatever follows. -/
theorem first_error_atEnd_iff (ts : List Token) (heof : .eof ∉ ts) (first : ParseError)
    (hfirst : (Parser.ofTokens ts).parse.2.errors.head? = some first) :
    (first.atEnd = true ↔
      ∃ us, .eof ∉ us ∧ ∃ program, (Parser.ofTokens (ts ++ us)).parseProgram = .ok program) ∧
    (first.atEnd = false →
      ∀ us, (Parser.ofTokens (ts ++ us)).parse.2.errors.head? = some first) := by
  have hthrough : ∀ us, (Control.idle.run (ts ++ us ++ [.eof])).errors =
      (Control.idle.run ts).errors ++
        ((Control.idle.run ts).control.run (us ++ [.eof])).errors := by
    intro us
    rw [List.append_assoc, Control.run_append]
    rfl
  replace hfirst : (Control.idle.run (ts ++ [] ++ [.eof])).errors.head? = some first := by
    rw [List.append_nil]
    exact hfirst
  rw [hthrough] at hfirst
  -- Whether the tokens themselves lead to an error decides which of the two it is.
  cases herrors : (Control.idle.run ts).errors with
  | nil =>
    have hmem : first ∈ ((Control.idle.run ts).control.run [.eof]).errors := by
      rw [herrors] at hfirst
      exact List.mem_of_head? hfirst
    obtain ⟨t, ht, hblames⟩ := Control.run_blames _ _ first hmem
    have hend : first.atEnd = true := hblames.atEnd_iff.2 (List.mem_singleton.1 ht)
    have hok : ∃ program, (Parser.ofTokens
        (ts ++ (Control.idle.run ts).control.completion)).parseProgram = .ok program := by
      rw [parseProgram_ok_iff, List.append_assoc]
      exact Control.completion_of_run heof herrors
    exact ⟨iff_of_true hend ⟨_, Control.completion_ne_eof _, hok⟩, by simp [hend]⟩
  | cons error errors =>
    rw [herrors] at hthrough hfirst
    obtain rfl : error = first := Option.some.inj hfirst
    have hmem : error ∈ (Control.idle.run ts).errors := by
      rw [herrors]
      exact List.mem_cons_self
    obtain ⟨t, ht, hblames⟩ := Control.run_blames _ _ error hmem
    have hend : ¬error.atEnd = true := fun h => heof (hblames.atEnd_iff.1 h ▸ ht)
    have hnever : ¬∃ us, .eof ∉ us ∧
        ∃ program, (Parser.ofTokens (ts ++ us)).parseProgram = .ok program := by
      rintro ⟨us, -, hok⟩
      rw [parseProgram_ok_iff, hthrough] at hok
      cases hok
    refine ⟨iff_of_false hend hnever, fun _ us => ?_⟩
    exact congrArg List.head? (hthrough us)

/-- A call in a block without their closing tokens, and the same call gone wrong. -/
theorem open_call_completed :
    let ts : List Token :=
      [.keyword .fn, .lparen, .rparen, .lbrace, .ident "f", .lparen, .int "1", .comma]
    let wrong : List Token := ts ++ [.semicolon]
    (.eof ∉ ts ∧ (Parser.ofTokens ts).parse.2.errors.head? = some (.noExpression .eof) ∧
      ∃ us, .eof ∉ us ∧ ∃ program, (Parser.ofTokens (ts ++ us)).parseProgram = .ok program) ∧
    .eof ∉ wrong ∧ ∀ us,
      (Parser.ofTokens (wrong ++ us)).parse.2.errors.head? = some (.noExpression .semicolon) := by
  intro ts wrong
  have hopen : (Parser.ofTokens ts).parse.2.errors.head? = some (.noExpression .eof) := by decide
  have hwrong : (Parser.ofTokens wrong).parse.2.errors.head? =
      some (.noExpression .semicolon) := by decide
  have hcompleted := first_error_atEnd_iff ts (by decide) _ hopen
  have hstays := first_error_atEnd_iff wrong (by decide) _ hwrong
  exact ⟨⟨by decide, hopen, hcompleted.1.1 rfl⟩, by decide, hstays.2 rfl⟩

end Monkey
