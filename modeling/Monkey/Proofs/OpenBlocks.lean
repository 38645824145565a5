import Monkey.Parser
import Monkey.Proofs.ParserMoves

/-!
# Open blocks and brace depth

The parser never has more blocks open than braces are: a closing brace closes the
innermost block whatever state the statement in it is in, and no other token but
an opening brace opens one. So no block is open at a semicolon outside of all
braces. That semicolon ends whatever is going on, broken or not, and parsing
begins anew behind it.
-/

set_option autoImplicit false

namespace Monkey

/-- The brace depth behind a token. A closing brace without an opening one counts for nothing. -/
def Token.depthAfter (depth : Nat) : Token → Nat
  | .lbrace => depth + 1
  | .rbrace => depth - 1
  | _ => depth

def braceDepth (depth : Nat) (ts : List Token) : Nat := ts.foldl Token.depthAfter depth

def Stack.blocks : Stack → Nat
  | [] => 0
  | .hole _ :: rest => Stack.blocks rest
  | .block _ _ :: rest => Stack.blocks rest + 1

def Token.leavesOpen (t : Token) (n : Nat) : Nat := if t = .rbrace then n - 1 else n

theorem Token.leavesOpen_of_ne {t : Token} (ht : t ≠ .rbrace) (n : Nat) : t.leavesOpen n = n :=
  if_neg ht

theorem Token.leavesOpen_mono (t : Token) {m n : Nat} (h : m ≤ n) :
    t.leavesOpen m ≤ t.leavesOpen n := by
  unfold Token.leavesOpen
  split <;> omega

theorem Token.leavesOpen_le_depthAfter (t : Token) (n : Nat) :
    t.leavesOpen n ≤ t.depthAfter n := by
  cases t <;> simp [Token.leavesOpen, Token.depthAfter]

theorem Token.depthAfter_inner {t : Token} (ht : t.isInner = true) (n : Nat) :
    t.depthAfter n = n := by
  cases t <;> first | rfl | cases ht

theorem Token.depthAfter_mono (t : Token) {m n : Nat} (h : m ≤ n) :
    t.depthAfter m ≤ t.depthAfter n := by
  cases t <;> simp only [Token.depthAfter] <;> omega

theorem braceDepth_append (depth : Nat) (ts us : List Token) :
    braceDepth depth (ts ++ us) = braceDepth (braceDepth depth ts) us :=
  List.foldl_append

theorem Stack.Under.blocks_eq {stack above : Stack} (h : Stack.Under stack above) :
    above.blocks = stack.blocks := by
  induction h with
  | refl => rfl
  | hole hole above _ ih => exact ih

namespace Control

theorem Settles.blocks_le {t : Token} {stack : Stack} {ended : Ended} {move : Move}
    (h : Settles t stack ended move) : move.control.stack.blocks ≤ t.leavesOpen stack.blocks := by
  induction h with
  | top ended =>
    rw [(atTop_begins t ended).under.blocks_eq]
    exact Nat.zero_le _
  | extend level e braced stack next hnext =>
    obtain ⟨hunder, hinner⟩ := extendExpr_under hnext
    have ht : t ≠ .rbrace := by rintro rfl; cases hinner
    rw [Token.leavesOpen_of_ne ht]
    exact Nat.le_of_eq hunder.blocks_eq
  | within owner ss us rest ended mode ht _ => exact Nat.le_of_eq (Token.leavesOpen_of_ne ht _).symm
  | start owner ss us rest ended ht _ =>
    rw [Token.leavesOpen_of_ne ht]
    exact Nat.le_of_eq (startStmt_begins t _).under.blocks_eq
  | close owner ss us rest ended ht _ => subst ht; exact Nat.le_refl _
  | alternative c ss rest ht => subst ht; exact Nat.le_succ _
  | leave owner ss rest e ended move _ _ ih =>
    exact Nat.le_trans ih (t.leavesOpen_mono (Nat.le_succ _))
  | fill hole rest e braced mode stack ht hstack =>
    have ht : t ≠ .rbrace := by rintro rfl; simp at ht
    rw [Token.leavesOpen_of_ne ht]
    exact Nat.le_of_eq hstack.blocks_eq
  | pass | finish | unclosed | drop => assumption

theorem step_blocks_le (control : Control) (t : Token) :
    (control.step t).control.stack.blocks ≤ t.depthAfter control.stack.blocks := by
  have hsteps := step_steps control t
  generalize control.step t = move at hsteps ⊢
  cases hsteps with
  | settle mode stack ended move h _ _ _ =>
    exact Nat.le_trans h.blocks_le (t.leavesOpen_le_depthAfter _)
  | advance mode stack next hnext ht =>
    rw [Token.depthAfter_inner ht]
    exact Nat.le_of_eq hnext.blocks_eq
  | opens mode stack owner ht _ => subst ht; exact Nat.le_refl _
  | giveUp mode stack above ended move error hstack h _ _ _ _ =>
    have hle := Nat.le_trans h.blocks_le (t.leavesOpen_le_depthAfter _)
    rw [hstack.blocks_eq] at hle
    exact hle

theorem run_blocks_le (control : Control) (ts : List Token) :
    (control.run ts).control.stack.blocks ≤ braceDepth control.stack.blocks ts := by
  have hmono : ∀ (us : List Token) (m n : Nat), m ≤ n → braceDepth m us ≤ braceDepth n us := by
    intro us
    induction us with
    | nil => exact fun _ _ h => h
    | cons u us ih => exact fun m n h => ih _ _ (u.depthAfter_mono h)
  induction ts generalizing control with
  | nil => exact Nat.le_refl _
  | cons t ts ih =>
    exact Nat.le_trans (ih (control.step t).control) (hmono ts _ _ (control.step_blocks_le t))

theorem Settles.semicolon_idle {t : Token} {stack : Stack} {ended : Ended} {move : Move}
    (h : Settles t stack ended move) (ht : t = .semicolon) (hblocks : stack.blocks = 0) :
    move.control = idle := by
  induction h with
  | top ended =>
    subst ht
    rcases ended with ⟨e, braced⟩ | s | _ | ⟨_ | _⟩ | _ <;> rfl
  | extend level e braced stack next hnext =>
    subst ht
    cases (extendExpr_under hnext).2
  | fill hole rest e braced mode stack hclose _ =>
    subst ht
    simp at hclose
  | within | start | close | alternative | leave => exact absurd hblocks (Nat.succ_ne_zero _)
  | pass hole rest e f braced move _ ih => exact ih hblocks
  | finish hole rest e braced s move _ ih => exact ih hblocks
  | unclosed hole rest e braced move _ ih => exact ih hblocks
  | drop hole rest ended move _ _ ih => exact ih hblocks

theorem step_semicolon_idle {control : Control} (hblocks : control.stack.blocks = 0) :
    (control.step .semicolon).control = idle := by
  have hsteps := step_steps control .semicolon
  generalize control.step .semicolon = move at hsteps ⊢
  cases hsteps with
  | settle mode stack ended move h _ _ _ => exact h.semicolon_idle rfl hblocks
  | advance mode stack next _ ht => cases ht
  | opens mode stack owner ht _ => cases ht
  | giveUp mode stack above ended move error hstack h _ _ _ _ =>
    exact h.semicolon_idle rfl (hstack.blocks_eq.trans hblocks)

theorem run_boundary {ts : List Token} (hdepth : braceDepth 0 ts = 0)
    (hlast : ts.getLast? = some .semicolon) : (idle.run ts).control = idle := by
  obtain ⟨us, rfl⟩ := List.getLast?_eq_some_iff.1 hlast
  have hblocks : (idle.run us).control.stack.blocks = 0 := by
    rw [braceDepth_append] at hdepth
    exact Nat.le_zero.1 (hdepth ▸ idle.run_blocks_le us)
  rw [run_append, run_single]
  exact step_semicolon_idle hblocks

end Control

theorem parse_ofTokens (ts : List Token) :
    (Parser.ofTokens ts).parse.1 = (Control.idle.run (ts ++ [.eof])).statements ∧
    (Parser.ofTokens ts).parse.2.errors = (Control.idle.run (ts ++ [.eof])).errors :=
  ⟨rfl, rfl⟩

theorem parse_append_of_idle {ts : List Token} (us : List Token)
    (h : (Control.idle.run ts).control = .idle) :
    (Parser.ofTokens (ts ++ us)).parse.1 =
      (Parser.ofTokens ts).parse.1 ++ (Parser.ofTokens us).parse.1 ∧
    (Parser.ofTokens (ts ++ us)).parse.2.errors =
      (Parser.ofTokens ts).parse.2.errors ++ (Parser.ofTokens us).parse.2.errors := by
  have hend : Control.idle.run (ts ++ [.eof]) =
      ⟨.idle, (Control.idle.run ts).statements, (Control.idle.run ts).errors⟩ := by
    rw [Control.run_append, h]
    simp [Move.followedBy, Control.run_single, Control.step, Control.idle, Control.settle,
      Control.atTop, Control.atTop.between, Move.quiet]
  have hboth : Control.idle.run (ts ++ us ++ [.eof]) =
      (Control.idle.run ts).followedBy (Control.idle.run (us ++ [.eof])) := by
    rw [List.append_assoc, Control.run_append, h]
  simp only [parse_ofTokens, hend, hboth]
  exact ⟨rfl, rfl⟩

/-- A semicolon outside of all braces is a boundary, for statements and errors. -/
theorem parse_append_of_boundary (ts us : List Token) (hdepth : braceDepth 0 ts = 0)
    (hlast : ts.getLast? = some .semicolon) :
    (Parser.ofTokens (ts ++ us)).parse.1 =
      (Parser.ofTokens ts).parse.1 ++ (Parser.ofTokens us).parse.1 ∧
    (Parser.ofTokens (ts ++ us)).parse.2.errors =
      (Parser.ofTokens ts).parse.2.errors ++ (Parser.ofTokens us).parse.2.errors :=
  parse_append_of_idle us (Control.run_boundary hdepth hlast)

/-- Two statements that break around braces, and what comes behind their semicolon. -/
theorem broken_boundary :
    let ts : List Token :=
      [.rbrace, .keyword .bind, .lbrace, .ident "x", .rbrace, .lparen, .int "1", .semicolon]
    let us : List Token := [.keyword .bind, .int "2"]
    braceDepth 0 ts = 0 ∧ ts.getLast? = some .semicolon ∧
      (Parser.ofTokens (ts ++ us)).parse.1 =
        (Parser.ofTokens ts).parse.1 ++ (Parser.ofTokens us).parse.1 ∧
      (Parser.ofTokens (ts ++ us)).parse.2.errors =
        (Parser.ofTokens ts).parse.2.errors ++ (Parser.ofTokens us).parse.2.errors := by
  intro ts us
  have hdepth : braceDepth 0 ts = 0 := by decide
  have hlast : ts.getLast? = some .semicolon := by decide
  exact ⟨hdepth, hlast, parse_append_of_boundary ts us hdepth hlast⟩

end Monkey
