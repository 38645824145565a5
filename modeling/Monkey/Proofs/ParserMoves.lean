import Monkey.Parser.Lemmas

/-!
# What a step of the parser can do

A step walks down the stack, past constructs that come to an end, to the one that
goes on. `Settles` lists where it can come to rest and what it can pass on the
way, and `Steps` what it can do first. The rest of the theory reads off these
lists what a step does to the stack, and which errors it finds.
-/

set_option autoImplicit false

namespace Monkey

inductive Stack.Under (stack : Stack) : Stack → Prop where
  | refl : Stack.Under stack stack
  | hole (hole : Hole) (above : Stack) (h : Stack.Under stack above) :
      Stack.Under stack (.hole hole :: above)

theorem Stack.Under.trans {low middle high : Stack} (h : Stack.Under low middle)
    (h' : Stack.Under middle high) : Stack.Under low high := by
  induction h' with
  | refl => exact h
  | hole hole above _ ih => exact .hole hole above ih

def Token.isInner : Token → Bool
  | .semicolon | .lbrace | .rbrace | .eof => false
  | _ => true

def Mode.awaitsBlock : Mode → Bool
  | .consequenceOpen _ | .alternativeOpen _ _ | .bodyOpen _ => true
  | _ => false

def Mode.behindBlock : Mode → Bool
  | .operator _ braced => braced
  | .consequenceEnd _ _ => true
  | _ => false

def ParseError.Blames (t : Token) : ParseError → Prop
  | unexpected _ found => found = t.kind
  | noExpression found => found = t.kind
  | integerTooLarge digits => t = .int digits

namespace Control

/-- What `t` does to the stack behind something that has come to an end. -/
inductive Settles (t : Token) : Stack → Ended → Move → Prop where
  | top (ended : Ended) : Settles t [] ended (atTop t ended)
  | extend (level : Nat) (e : Expr) (braced : Bool) (stack : Stack) (next : Control)
      (h : extendExpr? t level e stack = some next) :
      Settles t stack (.expr e braced) (.quiet next)
  /-- The block goes on, and so does its recovery, or a statement has ended. -/
  | within (owner : Owner) (ss us : Block) (rest : Stack) (ended : Ended) (mode : Mode)
      (ht : t ≠ .rbrace) (hended : ended ≠ .broken true) :
      Settles t (.block owner ss :: rest) ended (.quiet ⟨mode, .block owner us :: rest⟩)
  | start (owner : Owner) (ss us : Block) (rest : Stack) (ended : Ended) (ht : t ≠ .rbrace)
      (hended : ended ≠ .broken true) :
      Settles t (.block owner ss :: rest) ended (startStmt t (.block owner us :: rest))
  | close (owner : Owner) (ss us : Block) (rest : Stack) (ended : Ended) (ht : t = .rbrace)
      (hended : ended ≠ .broken true) :
      Settles t (.block owner ss :: rest) ended (.quiet ⟨owner.close us, rest⟩)
  /-- A block that ends without its closing brace, and another one after it. -/
  | alternative (c : Expr) (ss : Block) (rest : Stack) (ht : t = .keyword .otherwise) :
      Settles t (.block (.consequence c) ss :: rest) (.broken true)
        (.quiet ⟨.alternativeOpen c ss, rest⟩)
  /-- A block that ends without its closing brace. -/
  | leave (owner : Owner) (ss : Block) (rest : Stack) (e : Expr) (ended : Ended) (move : Move)
      (h : Settles t rest (.expr e true) move) (hended : t = .eof ∨ ended = .broken true) :
      Settles t (.block owner ss :: rest) ended move
  /-- The hole gets its expression and waits for no more, or for another one. -/
  | fill (hole : Hole) (rest : Stack) (e : Expr) (braced : Bool) (mode : Mode) (stack : Stack)
      (ht : t = .rparen ∨ t = .comma) (hstack : Stack.Under rest stack) :
      Settles t (.hole hole :: rest) (.expr e braced) (.quiet ⟨mode, stack⟩)
  | pass (hole : Hole) (rest : Stack) (e f : Expr) (braced : Bool) (move : Move)
      (h : Settles t rest (.expr f braced) move) :
      Settles t (.hole hole :: rest) (.expr e braced) move
  | finish (hole : Hole) (rest : Stack) (e : Expr) (braced : Bool) (s : Stmt) (move : Move)
      (h : Settles t rest (.stmt s) move) : Settles t (.hole hole :: rest) (.expr e braced) move
  | unclosed (hole : Hole) (rest : Stack) (e : Expr) (braced : Bool) (move : Move)
      (h : Settles t rest (.broken braced) move) :
      Settles t (.hole hole :: rest) (.expr e braced)
        (move.withError (.unexpected .rparen t.kind))
  | drop (hole : Hole) (rest : Stack) (ended : Ended) (move : Move)
      (hended : ∀ e braced, ended ≠ .expr e braced) (h : Settles t rest ended move) :
      Settles t (.hole hole :: rest) ended move

section

variable {t : Token}

theorem atBlock_settles {owner : Owner} {ss : Block} {rest : Stack} {resume : Ended → Move}
    (hresume : ∀ ended, Settles t rest ended (resume ended)) (ended : Ended) :
    Settles t (.block owner ss :: rest) ended (atBlock t owner ss rest resume ended) := by
  have hbetween : ∀ us : Block, ended ≠ .broken true →
      Settles t (.block owner ss :: rest) ended (atBlock.between t owner rest resume us) := by
    intro us hended
    unfold atBlock.between
    split
    · next ht => exact .close owner ss us rest ended ht hended
    · next ht =>
      split
      · next heof => exact .leave owner ss rest _ ended _ (hresume _) (.inl heof)
      · exact .start owner ss us rest ended ht hended
  have hafter : ∀ s : Stmt, ended ≠ .broken true →
      Settles t (.block owner ss :: rest) ended (atBlock.afterStmt t owner ss rest resume s) := by
    intro s hended
    unfold atBlock.afterStmt
    split
    · next ht => exact .within owner ss _ rest ended _ (by simp [ht]) hended
    · exact hbetween _ hended
  have hskipped : ended ≠ .broken true →
      Settles t (.block owner ss :: rest) ended (atBlock.skipped t owner ss rest resume) := by
    intro hended
    unfold atBlock.skipped
    split
    · next ht => exact .within owner ss ss rest ended _ (by simp [ht]) hended
    · split
      · exact hbetween ss hended
      · next ht => exact .within owner ss ss rest ended _ (fun h => ht (.inl h)) hended
  rcases ended with ⟨e, braced⟩ | s | _ | ⟨_ | _⟩ | _
  · simp only [atBlock]
    split
    · next next hnext => exact .extend 0 e braced _ next hnext
    · exact hafter _ (by simp)
  · exact hafter s (by simp)
  · exact hbetween ss (by simp)
  · exact hskipped (by simp)
  · simp only [atBlock, atBlock.closed]
    split
    · exact .alternative _ ss rest rfl
    · exact .leave owner ss rest _ _ _ (hresume _) (.inr rfl)
  · exact hskipped (by simp)

theorem fillHole_settles {hole : Hole} {rest : Stack} {resume : Ended → Move}
    (hresume : ∀ ended, Settles t rest ended (resume ended)) (e : Expr) (braced : Bool) :
    Settles t (.hole hole :: rest) (.expr e braced) (fillHole t hole e braced rest resume) := by
  have hunclosed : Settles t (.hole hole :: rest) (.expr e braced)
      (fillHole.unclosed t braced resume) := .unclosed hole rest e braced _ (hresume _)
  cases hole with
  | prefixOp o => exact .pass _ rest e _ braced _ (hresume _)
  | infixOp o left => exact .pass _ rest e _ braced _ (hresume _)
  | group =>
    simp only [fillHole]
    split
    · next ht => exact .fill _ rest e braced _ _ (.inl ht) .refl
    · exact hunclosed
  | condition =>
    simp only [fillHole]
    split
    · next ht => exact .fill _ rest e braced _ _ (.inl ht) .refl
    · exact hunclosed
  | argument f before =>
    simp only [fillHole]
    split
    · next ht => exact .fill _ rest e braced _ _ (.inr ht) (.hole _ _ .refl)
    · split
      · next ht => exact .fill _ rest e braced _ _ (.inl ht) .refl
      · exact hunclosed
  | bind name => exact .finish _ rest e braced _ _ (hresume _)
  | ret => exact .finish _ rest e braced _ _ (hresume _)

theorem settle_settles (t : Token) (stack : Stack) (ended : Ended) :
    Settles t stack ended (settle t stack ended) := by
  induction stack generalizing ended with
  | nil => exact .top ended
  | cons frame rest ih =>
    cases frame with
    | block owner ss => exact atBlock_settles ih ended
    | hole hole =>
      cases ended with
      | expr e braced =>
        simp only [settle]
        split
        · next next hnext => exact .extend _ e braced _ next hnext
        · exact fillHole_settles ih e braced
      | stmt s => exact .drop hole rest _ _ (by simp) (ih _)
      | nothing => exact .drop hole rest _ _ (by simp) (ih _)
      | broken braced => exact .drop hole rest _ _ (by simp) (ih _)
      | refused => exact .drop hole rest _ _ (by simp) (ih _)

theorem extendExpr_under {level : Nat} {e : Expr} {stack : Stack} {next : Control}
    (h : extendExpr? t level e stack = some next) :
    Stack.Under stack next.stack ∧ t.isInner = true := by
  unfold extendExpr? at h
  split at h
  · split at h
    · cases h
      exact ⟨.hole _ _ .refl, rfl⟩
    · cases h
  · cases h
    exact ⟨.refl, rfl⟩
  · cases h

theorem startExpr_under {stack : Stack} {next : Control} (h : startExpr t stack = .ok next) :
    Stack.Under stack next.stack ∧ t.isInner = true := by
  unfold startExpr at h
  split at h
  case h_2 =>
    split at h <;> cases h
    exact ⟨.refl, rfl⟩
  case h_9 => cases h
  all_goals
    cases h
    first | exact ⟨.refl, rfl⟩ | exact ⟨.hole _ _ .refl, rfl⟩

theorem startExpr_blames {stack : Stack} {error : ParseError}
    (h : startExpr t stack = .error error) : error.Blames t := by
  unfold startExpr at h
  split at h
  case h_2 =>
    split at h <;> cases h
    exact rfl
  case h_9 =>
    cases h
    exact rfl
  all_goals cases h

end

structure Begins (t : Token) (stack : Stack) (move : Move) : Prop where
  under : Stack.Under stack move.control.stack
  errors : ∀ error ∈ move.errors, error.Blames t

theorem startStmt_begins (t : Token) (stack : Stack) : Begins t stack (startStmt t stack) := by
  have hquiet : ∀ next : Control, Stack.Under stack next.stack → Begins t stack (.quiet next) :=
    fun _ hunder => ⟨hunder, fun _ h => nomatch h⟩
  unfold startStmt
  split
  · exact hquiet _ .refl
  · exact hquiet _ .refl
  · split
    · next next hnext => exact hquiet next (startExpr_under hnext).1
    · next error herror =>
      have hone : ∀ other ∈ [error], other.Blames t := by
        intro other hother
        rw [List.mem_singleton.1 hother]
        exact startExpr_blames herror
      split
      · exact ⟨.refl, hone⟩
      · exact ⟨.refl, hone⟩

theorem atTop_begins (t : Token) (ended : Ended) : Begins t [] (atTop t ended) := by
  have hquiet : ∀ next : Control, Stack.Under [] next.stack → Begins t [] (.quiet next) :=
    fun _ hunder => ⟨hunder, fun _ h => nomatch h⟩
  have hbetween : Begins t [] (atTop.between t) := by
    unfold atTop.between
    split
    · exact hquiet _ .refl
    · exact startStmt_begins t []
  have hafter : ∀ s : Stmt, Begins t [] (atTop.afterStmt t s) := by
    intro s
    unfold atTop.afterStmt
    split
    · exact ⟨.refl, fun _ h => nomatch h⟩
    · exact ⟨hbetween.under, hbetween.errors⟩
  have hskipped : Begins t [] (atTop.skipped t) := by
    unfold atTop.skipped
    split
    · exact hquiet _ .refl
    · split
      · exact hbetween
      · exact hquiet _ .refl
  rcases ended with ⟨e, braced⟩ | s | _ | ⟨_ | _⟩ | _
  · simp only [atTop]
    split
    · next next hnext => exact hquiet next (extendExpr_under hnext).1
    · exact hafter _
  · exact hafter s
  · exact hbetween
  · exact hskipped
  · exact hbetween
  · simp only [atTop]
    split
    · exact hquiet _ .refl
    · exact hskipped

inductive Steps (t : Token) : Control → Move → Prop where
  | settle (mode : Mode) (stack : Stack) (ended : Ended) (move : Move)
      (h : Settles t stack ended move) (hended : ended ≠ .broken true)
      (hbehind : ∀ e, ended = .expr e true → mode.behindBlock = true)
      (hawaits : mode.awaitsBlock = false) : Steps t ⟨mode, stack⟩ move
  | advance (mode : Mode) (stack : Stack) (next : Control) (hnext : Stack.Under stack next.stack)
      (ht : t.isInner = true) : Steps t ⟨mode, stack⟩ (.quiet next)
  | opens (mode : Mode) (stack : Stack) (owner : Owner) (ht : t = .lbrace)
      (hmode : mode.awaitsBlock = true) :
      Steps t ⟨mode, stack⟩ (.quiet ⟨.statement, .block owner [] :: stack⟩)
  | giveUp (mode : Mode) (stack above : Stack) (ended : Ended) (move : Move) (error : ParseError)
      (hstack : Stack.Under stack above) (h : Settles t above ended move)
      (hended : ended = .refused ∨ ended = .broken false) (herror : error.Blames t)
      (hbehind : mode.behindBlock = false) (hawaits : mode.awaitsBlock = true → t ≠ .lbrace) :
      Steps t ⟨mode, stack⟩ (move.withError error)

section

variable {t : Token} {mode : Mode} {stack : Stack}

theorem operand_steps {above : Stack} (habove : Stack.Under stack above)
    (hbehind : mode.behindBlock = false) (hawaits : mode.awaitsBlock = false) :
    Steps t ⟨mode, stack⟩ (operand t above) := by
  unfold operand
  split
  · next next hnext =>
    obtain ⟨hunder, hinner⟩ := startExpr_under hnext
    exact .advance mode stack next (habove.trans hunder) hinner
  · next error herror =>
    have hsettles := settle_settles t above .refused
    exact .giveUp mode stack above _ _ error habove hsettles (.inl rfl) (startExpr_blames herror)
      hbehind (by simp [hawaits])

theorem missing_steps (expected : Token.Kind) (hbehind : mode.behindBlock = false)
    (hawaits : mode.awaitsBlock = true → t ≠ .lbrace) :
    Steps t ⟨mode, stack⟩ (missing expected t stack) :=
  .giveUp mode stack stack _ _ _ .refl (settle_settles t stack (.broken false)) (.inr rfl) rfl
    hbehind hawaits

theorem expect_steps {expected : Token} {next : Control} (hexpected : expected.isInner = true)
    (hnext : Stack.Under stack next.stack) (hbehind : mode.behindBlock = false)
    (hawaits : mode.awaitsBlock = false) :
    Steps t ⟨mode, stack⟩ (expect expected t stack next) := by
  unfold expect
  split
  · next ht => exact .advance mode stack next hnext (ht ▸ hexpected)
  · exact missing_steps _ hbehind (by simp [hawaits])

theorem expectName_steps {next : String → Control}
    (hnext : ∀ name, Stack.Under stack (next name).stack) (hbehind : mode.behindBlock = false)
    (hawaits : mode.awaitsBlock = false) :
    Steps t ⟨mode, stack⟩ (expectName t stack next) := by
  unfold expectName
  split
  · next name => exact .advance mode stack _ (hnext name) rfl
  · exact missing_steps _ hbehind (by simp [hawaits])

theorem lbrace_steps (owner : Owner) (hbehind : mode.behindBlock = false)
    (hawaits : mode.awaitsBlock = true) :
    Steps t ⟨mode, stack⟩ (expect .lbrace t stack ⟨.statement, .block owner [] :: stack⟩) := by
  unfold expect
  split
  · next ht => exact .opens mode stack owner ht hawaits
  · next ht => exact missing_steps _ hbehind fun _ => ht

end

theorem step_steps (control : Control) (t : Token) : Steps t control (control.step t) := by
  obtain ⟨mode, stack⟩ := control
  have hsettle : ∀ ended : Ended, Settles t stack ended (settle t stack ended) :=
    settle_settles t stack
  cases mode with
  | statement => exact .settle _ _ _ _ (hsettle _) (by simp) (by simp) rfl
  | skip => exact .settle _ _ _ _ (hsettle _) (by simp) (by simp) rfl
  | operand => exact operand_steps .refl rfl rfl
  | operator e braced =>
    exact .settle _ _ _ _ (hsettle _) (by simp) (by simp [Mode.behindBlock]) rfl
  | bindName => exact expectName_steps (fun _ => .refl) rfl rfl
  | bindAssign name => exact expect_steps rfl (.hole _ _ .refl) rfl rfl
  | returned =>
    simp only [step]
    split
    · exact .settle _ _ _ _ (hsettle _) (by simp) (by simp) rfl
    · exact operand_steps (.hole _ _ .refl) rfl rfl
  | condOpen => exact expect_steps rfl (.hole _ _ .refl) rfl rfl
  | consequenceOpen c => exact lbrace_steps _ rfl rfl
  | consequenceEnd c a =>
    simp only [step]
    split
    · next ht => exact .advance _ _ _ .refl (by rw [ht]; rfl)
    · exact .settle _ _ _ _ (hsettle _) (by simp) (by simp [Mode.behindBlock]) rfl
  | alternativeOpen c a => exact lbrace_steps _ rfl rfl
  | fnOpen => exact expect_steps rfl .refl rfl rfl
  | firstParam =>
    simp only [step]
    split
    · next ht => exact .advance _ _ _ .refl (by rw [ht]; rfl)
    · exact expectName_steps (fun _ => .refl) rfl rfl
  | param before => exact expectName_steps (fun _ => .refl) rfl rfl
  | paramEnd ps =>
    simp only [step]
    split
    · next ht => exact .advance _ _ _ .refl (by rw [ht]; rfl)
    · exact expect_steps rfl .refl rfl rfl
  | bodyOpen ps => exact lbrace_steps _ rfl rfl
  | arguments f =>
    simp only [step]
    split
    · next ht => exact .advance _ _ _ .refl (by rw [ht]; rfl)
    · exact operand_steps (.hole _ _ .refl) rfl rfl

theorem Settles.blames {t : Token} {stack : Stack} {ended : Ended} {move : Move}
    (h : Settles t stack ended move) : ∀ error ∈ move.errors, error.Blames t := by
  induction h with
  | top ended => exact (atTop_begins t ended).errors
  | start owner ss us rest ended _ _ => exact (startStmt_begins t _).errors
  | extend | within | close | alternative | fill => exact fun _ herror => nomatch herror
  | unclosed hole rest e braced move _ ih =>
    intro error herror
    rcases List.mem_cons.1 herror with rfl | hmem
    · exact rfl
    · exact ih error hmem
  | leave | pass | finish | drop => assumption

theorem step_blames (control : Control) (t : Token) :
    ∀ error ∈ (control.step t).errors, error.Blames t := by
  have hsteps := step_steps control t
  generalize control.step t = move at hsteps
  cases hsteps with
  | settle mode stack ended move h => exact h.blames
  | advance | opens => exact fun _ herror => nomatch herror
  | giveUp mode stack above ended move error _ h _ herror =>
    intro other hother
    rcases List.mem_cons.1 hother with rfl | hmem
    · exact herror
    · exact h.blames other hmem

end Control

end Monkey
