import Monkey.Proofs.OpenBlocks

/-!
# Which brace closes a block

Recovery stops in front of every closing brace, and the innermost open block
ends there. It does not match braces: an opening brace that starts no block is
skipped like any other token, and the closing brace that matches it ends a block
that began before. As long as every opening brace opens a block, every block
ends at its own brace, and whatever is broken inside of it stays there.
-/

set_option autoImplicit false

namespace Monkey

/-- Every closing brace has an opening one before it, the first `depth` being open already, and
in the end all are closed. -/
def balanced : Nat → List Token → Bool
  | depth, [] => depth == 0
  | depth, t :: ts => (t != .rbrace || 0 < depth) && balanced (t.depthAfter depth) ts

def functionHead : List Token := [.keyword .fn, .lparen, .rparen, .lbrace]

def ParseError.isUnclosed : ParseError → Bool
  | unexpected expected _ => expected == .rparen
  | _ => false

namespace Control

/-- The token is no opening brace, or the one that a block waits for. -/
def opensBlock (control : Control) (t : Token) : Bool :=
  t != .lbrace || control.mode.awaitsBlock

/-- The token is not blamed for a closing parenthesis that is missing behind a block. -/
def keepsBlock (control : Control) (t : Token) : Bool :=
  !(control.mode.behindBlock && (control.step t).errors.any ParseError.isUnclosed)

def throughout (holds : Control → Token → Bool) : Control → List Token → Bool
  | _, [] => true
  | control, t :: ts => holds control t && throughout holds (control.step t).control ts

/-- Every opening brace opens a block, and the brace that matches it closes that block. -/
def MatchesBraces (control : Control) (ts : List Token) : Prop :=
  ∀ us vs ws, ts = us ++ .lbrace :: (vs ++ .rbrace :: ws) → balanced 0 vs = true →
    ∃ owner ss,
      (control.run (us ++ [.lbrace])).control =
        ⟨.statement, .block owner [] :: (control.run us).control.stack⟩ ∧
      (control.run (us ++ .lbrace :: (vs ++ [.rbrace]))).control =
        ⟨owner.close ss, (control.run us).control.stack⟩

end Control

/-- The stack is inside a block on `rest`, with `n` other blocks open in that one. -/
inductive Stack.Inside (owner : Owner) (rest : Stack) : Nat → Stack → Prop where
  | base (ss : Block) : Stack.Inside owner rest 0 (.block owner ss :: rest)
  | hole (n : Nat) (hole : Hole) (above : Stack) (h : Stack.Inside owner rest n above) :
      Stack.Inside owner rest n (.hole hole :: above)
  | block (n : Nat) (other : Owner) (ss : Block) (above : Stack)
      (h : Stack.Inside owner rest n above) :
      Stack.Inside owner rest (n + 1) (.block other ss :: above)

/-- What `t` leaves of a block in which `n` others are open: it is closed if `t` is a closing
brace and there are none. -/
def Control.LeftBy (owner : Owner) (rest : Stack) (t : Token) (n : Nat) (control : Control) :
    Prop :=
  if t = .rbrace ∧ n = 0 then ∃ ss, control = ⟨owner.close ss, rest⟩
  else Stack.Inside owner rest (t.depthAfter n) control.stack

def Ended.Stays (errors : List ParseError) : Ended → Prop
  | .expr _ true => ∀ error ∈ errors, error.isUnclosed = false
  | .broken braced => braced = false
  | _ => True

theorem balanced_cons {depth : Nat} {t : Token} {ts : List Token} :
    balanced depth (t :: ts) = true ↔
      (t = .rbrace → 0 < depth) ∧ balanced (t.depthAfter depth) ts = true := by
  simp only [balanced, Bool.and_eq_true, Bool.or_eq_true, bne_iff_ne, decide_eq_true_eq,
    Decidable.imp_iff_not_or]

theorem balanced_closed {depth : Nat} {ts : List Token} (h : balanced depth ts = true) :
    braceDepth depth ts = 0 := by
  induction ts generalizing depth with
  | nil => simpa [balanced, braceDepth] using h
  | cons t ts ih => exact ih (balanced_cons.1 h).2

theorem balanced_append {depth : Nat} {ts us : List Token} (h : balanced depth (ts ++ us) = true) :
    balanced (braceDepth depth ts) us = true := by
  induction ts generalizing depth with
  | nil => exact h
  | cons t ts ih => exact ih (balanced_cons.1 h).2

theorem balanced_followed {depth more : Nat} {ts us : List Token} (h : balanced depth ts = true)
    (hus : balanced more us = true) : balanced (more + depth) (ts ++ us) = true := by
  induction ts generalizing depth with
  | nil =>
    have hzero : depth = 0 := by simpa [balanced] using h
    subst hzero
    exact hus
  | cons t ts ih =>
    obtain ⟨hpos, hrest⟩ := balanced_cons.1 h
    have hdepth : t.depthAfter (more + depth) = more + t.depthAfter depth := by
      cases t with
      | rbrace => exact Nat.add_sub_assoc (hpos rfl) more
      | _ => rfl
    rw [List.cons_append, balanced_cons, hdepth]
    exact ⟨fun ht => Nat.add_pos_right more (hpos ht), ih hrest⟩

theorem balanced_split {depth more : Nat} {ts : List Token}
    (h : balanced (depth + 1 + more) ts = true) :
    ∃ us vs, ts = us ++ .rbrace :: vs ∧ balanced depth us = true := by
  induction ts generalizing depth with
  | nil => simp [balanced] at h
  | cons t ts ih =>
    obtain ⟨-, hrest⟩ := balanced_cons.1 h
    -- Unless `t` is the brace in question, the brace is found behind it.
    have hnext : ∀ next, t.depthAfter depth = next → (t = .rbrace → 0 < depth) →
        balanced (next + 1 + more) ts = true →
        ∃ us vs, t :: ts = us ++ .rbrace :: vs ∧ balanced depth us = true := by
      rintro _ rfl hpos hts
      obtain ⟨us, vs, rfl, hus⟩ := ih hts
      exact ⟨t :: us, vs, rfl, balanced_cons.2 ⟨hpos, hus⟩⟩
    cases t with
    | rbrace =>
      cases depth with
      | zero => exact ⟨[], ts, rfl, rfl⟩
      | succ depth =>
        have hdepth : depth + 1 + 1 + more - 1 = depth + 1 + more := by omega
        exact hnext depth rfl (fun _ => Nat.succ_pos _) (hdepth ▸ hrest)
    | lbrace =>
      have hdepth : depth + 1 + more + 1 = depth + 1 + 1 + more := by omega
      exact hnext (depth + 1) rfl (by simp) (hdepth ▸ hrest)
    | _ => exact hnext depth rfl (by simp) hrest

namespace Stack.Inside

variable {owner : Owner} {rest : Stack} {n : Nat}

theorem under {stack above : Stack} (h : Stack.Inside owner rest n stack)
    (habove : Stack.Under stack above) : Stack.Inside owner rest n above := by
  induction habove with
  | refl => exact h
  | hole hole above _ ih => exact .hole n hole above ih

theorem of_hole {hole : Hole} {above : Stack}
    (h : Stack.Inside owner rest n (.hole hole :: above)) : Stack.Inside owner rest n above := by
  cases h with
  | hole _ _ _ h => exact h

theorem replace {other : Owner} {ss : Block} {above : Stack}
    (h : Stack.Inside owner rest n (.block other ss :: above)) (us : Block) :
    Stack.Inside owner rest n (.block other us :: above) := by
  cases h with
  | base => exact .base us
  | block n _ _ _ h => exact .block n other us above h

end Stack.Inside

namespace Ended.Stays

theorem ne_broken {ended : Ended} {errors : List ParseError} (h : ended.Stays errors) :
    ended ≠ .broken true := by
  rintro rfl
  cases h

theorem unclosed {e : Expr} {braced : Bool} {t : Token} {errors : List ParseError}
    (h : (Ended.expr e braced).Stays (.unexpected .rparen t.kind :: errors)) :
    (Ended.broken braced).Stays errors := by
  cases braced with
  | false => rfl
  | true => cases h _ List.mem_cons_self

end Ended.Stays

namespace Control

variable {owner : Owner} {rest : Stack} {n : Nat} {t : Token}

theorem LeftBy.inside {control : Control} (h : Stack.Inside owner rest n control.stack)
    (hopen : t ≠ .lbrace) (hclose : t ≠ .rbrace) : control.LeftBy owner rest t n := by
  have hdepth : t.depthAfter n = n := by
    cases t with
    | lbrace => exact absurd rfl hopen
    | rbrace => exact absurd rfl hclose
    | _ => rfl
  rw [LeftBy, if_neg (fun hboth => hclose hboth.1), hdepth]
  exact h

theorem opensBlock_iff {control : Control} :
    control.opensBlock t = true ↔ (t = .lbrace → control.mode.awaitsBlock = true) := by
  simp only [opensBlock, Bool.or_eq_true, bne_iff_ne, Decidable.imp_iff_not_or]

theorem startStmt_statements (t : Token) (stack : Stack) : (startStmt t stack).statements = [] := by
  unfold startStmt
  split
  · rfl
  · rfl
  · split
    · rfl
    · split <;> rfl

theorem Settles.leftBy {stack : Stack} {ended : Ended} {move : Move}
    (h : Settles t stack ended move) (hopen : t ≠ .lbrace) (heof : t ≠ .eof)
    (hstays : ended.Stays move.errors) (hin : Stack.Inside owner rest n stack) :
    move.statements = [] ∧ move.control.LeftBy owner rest t n := by
  induction h with
  | top ended => cases hin
  | extend level e braced stack next hnext =>
    obtain ⟨hunder, hinner⟩ := extendExpr_under hnext
    exact ⟨rfl, .inside (hin.under hunder) hopen (by rintro rfl; cases hinner)⟩
  | within other ss us above ended mode hclose _ =>
    exact ⟨rfl, .inside (hin.replace us) hopen hclose⟩
  | start other ss us above ended hclose _ =>
    have hunder := (startStmt_begins t (.block other us :: above)).under
    exact ⟨startStmt_statements t _, .inside ((hin.replace us).under hunder) hopen hclose⟩
  | close other ss us above ended hbrace _ =>
    subst hbrace
    cases hin with
    | base => exact ⟨rfl, us, rfl⟩
    | block n _ _ _ hin => exact ⟨rfl, hin⟩
  -- A block is left without its brace only behind something that broke after an inner block.
  | alternative c ss above _ => cases hstays
  | leave other ss above e ended move _ hended _ =>
    exact (hended.elim heof hstays.ne_broken).elim
  | fill hole above e braced mode stack ht hstack =>
    exact ⟨rfl, .inside (hin.of_hole.under hstack) hopen (by rintro rfl; simp at ht)⟩
  | pass hole above e f braced move _ ih => cases braced <;> exact ih hstays hin.of_hole
  | finish hole above e braced s move _ ih => exact ih trivial hin.of_hole
  | unclosed hole above e braced move _ ih => exact ih hstays.unclosed hin.of_hole
  | drop hole above ended move _ _ ih => exact ih hstays hin.of_hole

theorem step_leftBy {control : Control} (heof : t ≠ .eof) (hopens : control.opensBlock t = true)
    (hkeeps : control.keepsBlock t = true) (hin : Stack.Inside owner rest n control.stack) :
    (control.step t).statements = [] ∧ (control.step t).control.LeftBy owner rest t n := by
  have hawait := opensBlock_iff.1 hopens
  have hclosed : control.mode.behindBlock = true →
      ∀ error ∈ (control.step t).errors, error.isUnclosed = false := by
    intro hbehind
    simpa [keepsBlock, hbehind] using hkeeps
  have hsteps := step_steps control t
  generalize control.step t = move at hsteps hclosed ⊢
  cases hsteps with
  | settle mode stack ended move h hended hbehind hawaits =>
    have hopen : t ≠ .lbrace := fun ht => Bool.false_ne_true (hawaits.symm.trans (hawait ht))
    have hstays : ended.Stays move.errors := by
      rcases ended with ⟨e, _ | _⟩ | s | _ | ⟨_ | _⟩ | _
      · trivial
      · exact hclosed (hbehind e rfl)
      · trivial
      · trivial
      · rfl
      · exact absurd rfl hended
      · trivial
    exact h.leftBy hopen heof hstays hin
  | advance mode stack next hnext ht =>
    have hopen : t ≠ .lbrace := by rintro rfl; cases ht
    have hclose : t ≠ .rbrace := by rintro rfl; cases ht
    exact ⟨rfl, .inside (hin.under hnext) hopen hclose⟩
  | opens mode stack other ht _ =>
    subst ht
    exact ⟨rfl, .block n other [] stack hin⟩
  | giveUp mode stack above ended move error hstack h hended _ _ hawaits =>
    have hopen : t ≠ .lbrace := fun ht => hawaits (hawait ht) ht
    have hstays : ended.Stays move.errors := by
      rcases hended with rfl | rfl
      · trivial
      · rfl
    exact h.leftBy hopen heof hstays (hin.under hstack)

theorem step_lbrace_blocks_le {control : Control} (hawaits : control.mode.awaitsBlock = false) :
    (control.step .lbrace).control.stack.blocks ≤ control.stack.blocks := by
  have hsteps := step_steps control .lbrace
  generalize control.step .lbrace = move at hsteps ⊢
  cases hsteps with
  | settle mode stack ended move h _ _ _ => exact h.blocks_le
  | advance mode stack next _ ht => cases ht
  | opens mode stack owner _ hmode => exact absurd hmode (by simp [hawaits])
  | giveUp mode stack above ended move error hstack h _ _ _ _ =>
    rw [← hstack.blocks_eq]
    exact h.blocks_le

theorem throughout_append (holds : Control → Token → Bool) (control : Control)
    (ts us : List Token) : control.throughout holds (ts ++ us) =
      (control.throughout holds ts && (control.run ts).control.throughout holds us) := by
  induction ts generalizing control with
  | nil => rfl
  | cons t ts ih => simp [throughout, run, ih, Move.followedBy, Bool.and_assoc]

theorem throughout_iff {holds : Control → Token → Bool} {control : Control} {ts : List Token} :
    control.throughout holds ts = true ↔
      ∀ us t vs, ts = us ++ t :: vs → holds (control.run us).control t = true := by
  constructor
  · rintro h us t vs rfl
    simp only [throughout_append, throughout, Bool.and_eq_true] at h
    exact h.2.1
  · intro h
    induction ts generalizing control with
    | nil => rfl
    | cons t ts ih =>
      have hhead : holds control t = true := h [] t ts rfl
      have htail : (control.step t).control.throughout holds ts = true :=
        ih fun us u vs hts => h (t :: us) u vs (hts ▸ rfl)
      rw [throughout, hhead, htail]
      rfl

theorem run_inside {control : Control} {us vs : List Token}
    (hbalanced : balanced n (us ++ vs) = true) (heof : .eof ∉ us)
    (hopens : control.throughout opensBlock us = true)
    (hkeeps : control.throughout keepsBlock us = true)
    (hin : Stack.Inside owner rest n control.stack) :
    (control.run us).statements = [] ∧
      Stack.Inside owner rest (braceDepth n us) (control.run us).control.stack := by
  induction us generalizing control n with
  | nil => exact ⟨rfl, hin⟩
  | cons t us ih =>
    simp only [throughout, Bool.and_eq_true] at hopens hkeeps
    obtain ⟨hpos, hrest⟩ := balanced_cons.1 hbalanced
    have hne : t ≠ .eof := fun ht => heof (ht ▸ List.mem_cons_self)
    obtain ⟨hstatements, hleft⟩ := step_leftBy hne hopens.1 hkeeps.1 hin
    have hstay : ¬(t = .rbrace ∧ n = 0) := fun ⟨ht, hn⟩ => Nat.ne_of_gt (hpos ht) hn
    rw [LeftBy, if_neg hstay] at hleft
    have hrun := ih hrest (fun h => heof (List.mem_cons_of_mem t h)) hopens.2 hkeeps.2 hleft
    exact ⟨List.append_eq_nil_iff.2 ⟨hstatements, hrun.1⟩, hrun.2⟩

theorem run_block {ts : List Token} (hbalanced : balanced 0 ts = true) (heof : .eof ∉ ts)
    (hopens : (⟨.statement, .block owner [] :: rest⟩ : Control).throughout opensBlock ts = true)
    (hkeeps : (⟨.statement, .block owner [] :: rest⟩ : Control).throughout keepsBlock
      (ts ++ [.rbrace]) = true) :
    (run ⟨.statement, .block owner [] :: rest⟩ (ts ++ [.rbrace])).statements = [] ∧
      ∃ ss, (run ⟨.statement, .block owner [] :: rest⟩ (ts ++ [.rbrace])).control =
        ⟨owner.close ss, rest⟩ := by
  rw [throughout_append, Bool.and_eq_true] at hkeeps
  have hall : balanced 0 (ts ++ []) = true := by rwa [List.append_nil]
  obtain ⟨hstatements, hin⟩ := run_inside hall heof hopens hkeeps.1 (.base [])
  rw [balanced_closed hbalanced] at hin
  have hlast := hkeeps.2
  simp only [throughout, Bool.and_true] at hlast
  obtain ⟨hnone, hclosed⟩ := step_leftBy (by simp) rfl hlast hin
  rw [LeftBy, if_pos ⟨rfl, rfl⟩] at hclosed
  rw [run_append, run_single]
  exact ⟨List.append_eq_nil_iff.2 ⟨hstatements, hnone⟩, hclosed⟩

theorem step_opens {control : Control} (hawaits : control.mode.awaitsBlock = true) :
    ∃ owner, control.step .lbrace = .quiet ⟨.statement, .block owner [] :: control.stack⟩ := by
  obtain ⟨mode, stack⟩ := control
  cases mode with
  | consequenceOpen c => exact ⟨.consequence c, rfl⟩
  | alternativeOpen c a => exact ⟨.alternative c a, rfl⟩
  | bodyOpen ps => exact ⟨.body ps, rfl⟩
  | _ => cases hawaits

theorem matchesBraces_iff {control : Control} {ts : List Token} (hbalanced : balanced 0 ts = true)
    (heof : .eof ∉ ts) (hkeeps : control.throughout keepsBlock ts = true) :
    control.throughout opensBlock ts = true ↔ control.MatchesBraces ts := by
  constructor
  · rintro hopens us vs ws rfl hvs
    have heof : .eof ∉ vs := fun h => heof (by simp [h])
    simp only [throughout_append, throughout, Bool.and_eq_true] at hopens hkeeps
    obtain ⟨owner, hstep⟩ := step_opens (opensBlock_iff.1 hopens.2.1 rfl)
    have hopen : (control.run (us ++ [.lbrace])).control =
        ⟨.statement, .block owner [] :: (control.run us).control.stack⟩ := by
      rw [run_append, run_single, hstep]
      rfl
    rw [hstep] at hopens hkeeps
    have hall : (⟨.statement, .block owner [] :: (control.run us).control.stack⟩ :
        Control).throughout keepsBlock (vs ++ [.rbrace]) = true := by
      simp only [throughout_append, throughout, Bool.and_eq_true]
      exact ⟨hkeeps.2.2.1, hkeeps.2.2.2.1, trivial⟩
    obtain ⟨-, ss, hclose⟩ := run_block hvs heof hopens.2.2.1 hall
    refine ⟨owner, ss, hopen, ?_⟩
    rw [run_append, run_step hstep]
    exact hclose
  · intro hmatches
    refine throughout_iff.2 fun us t vs hts => opensBlock_iff.2 ?_
    rintro rfl
    subst hts
    have hopen : balanced (0 + 1 + braceDepth 0 us) vs = true := by
      rw [Nat.zero_add, Nat.add_comm]
      exact (balanced_cons.1 (balanced_append hbalanced)).2
    obtain ⟨inner, after, rfl, hinner⟩ := balanced_split hopen
    obtain ⟨owner, ss, hstep, -⟩ := hmatches us inner after rfl hinner
    rw [run_append, run_single] at hstep
    -- A brace that opens no block leaves the stack no higher than it was.
    cases hawaits : (control.run us).control.mode.awaitsBlock with
    | true => rfl
    | false =>
      have hle := step_lbrace_blocks_le hawaits
      simp only [Move.followedBy] at hstep
      rw [hstep] at hle
      exact absurd hle (Nat.not_succ_le_self _)

end Control

/-- What is behind a function body is parsed as it is on its own. If no parenthesis is missing
behind a block in the body, then blocks and braces match exactly if every opening brace opens a
block, and the body then stays in its function. -/
theorem parse_function_body (body rest : List Token) (heof : .eof ∉ body)
    (hbalanced : balanced 0 body = true) :
    let literal := functionHead ++ body ++ [.rbrace, .semicolon]
    let start := (Control.idle.run functionHead).control
    ((Parser.ofTokens (literal ++ rest)).parse.1 =
        (Parser.ofTokens literal).parse.1 ++ (Parser.ofTokens rest).parse.1 ∧
      (Parser.ofTokens (literal ++ rest)).parse.2.errors =
        (Parser.ofTokens literal).parse.2.errors ++ (Parser.ofTokens rest).parse.2.errors) ∧
    (start.throughout Control.keepsBlock (body ++ [.rbrace]) = true →
      (start.throughout Control.opensBlock body = true ↔ start.MatchesBraces body) ∧
      (start.throughout Control.opensBlock body = true →
        ∃ ss, (Parser.ofTokens (literal ++ rest)).parse.1 =
          .expr (.fn [] ss) :: (Parser.ofTokens rest).parse.1)) := by
  intro literal start
  have hdepth : braceDepth 0 literal = 0 := by
    have hclosed : balanced 1 (body ++ [.rbrace, .semicolon]) = true :=
      balanced_followed hbalanced rfl
    have hliteral : literal = functionHead ++ (body ++ [.rbrace, .semicolon]) :=
      List.append_assoc _ _ _
    rw [hliteral, braceDepth_append]
    exact balanced_closed hclosed
  have hlast : literal.getLast? = some .semicolon := by simp [literal]
  have happend := parse_append_of_idle rest (Control.run_boundary hdepth hlast)
  refine ⟨happend, fun hkeeps => ⟨?_, fun hopens => ?_⟩⟩
  · rw [Control.throughout_append, Bool.and_eq_true] at hkeeps
    exact Control.matchesBraces_iff hbalanced heof hkeeps.1
  · obtain ⟨hstatements, ss, hcontrol⟩ := Control.run_block hbalanced heof hopens hkeeps
    have hparse : (Parser.ofTokens literal).parse.1 =
        (start.run ((body ++ [.rbrace]) ++ [.semicolon, .eof])).statements := by
      have htokens : literal ++ [.eof] =
          functionHead ++ ((body ++ [.rbrace]) ++ [.semicolon, .eof]) := by
        simp [literal]
      rw [(parse_ofTokens literal).1, htokens, Control.run_append]
      rfl
    rw [Control.run_append] at hparse
    refine ⟨ss, ?_⟩
    have hstart : start = ⟨.statement, [.block (.body []) []]⟩ := rfl
    rw [happend.1, hparse, Move.followedBy, hstart, hstatements, hcontrol]
    rfl

/-- A statement that breaks behind a block of its own, in a body that goes on. -/
theorem broken_body_parsed :
    let body : List Token := [.lparen, .keyword .cond, .lparen, .ident "a", .rparen, .lbrace,
      .keyword .bind, .semicolon, .rbrace, .op .plus, .semicolon, .ident "b"]
    let rest : List Token := [.keyword .bind, .ident "c", .assign]
    let start := (Control.idle.run functionHead).control
    .eof ∉ body ∧ balanced 0 body = true ∧
      start.throughout Control.keepsBlock (body ++ [.rbrace]) = true ∧
      start.throughout Control.opensBlock body = true ∧
      ∃ ss, (Parser.ofTokens (functionHead ++ body ++ [.rbrace, .semicolon] ++ rest)).parse.1 =
        .expr (.fn [] ss) :: (Parser.ofTokens rest).parse.1 := by
  intro body rest start
  have hkeeps : start.throughout Control.keepsBlock (body ++ [.rbrace]) = true := by decide
  have hopens : start.throughout Control.opensBlock body = true := by decide
  have hparsed := parse_function_body body rest (by decide) (by decide)
  exact ⟨by decide, by decide, hkeeps, hopens, (hparsed.2 hkeeps).2 hopens⟩

/-- A brace that no block waits for is skipped, and the one that matches it ends the function. -/
theorem skipped_brace_ends_body :
    let body : List Token := [.lbrace, .rbrace, .ident "x"]
    let tokens := functionHead ++ body ++ [.rbrace, .semicolon]
    .eof ∉ body ∧ balanced 0 body = true ∧
      (Parser.ofTokens (tokens ++ [])).parse.1 = [.expr (.fn [] []), .expr (.ident "x")] ∧
      ¬∃ ps ss, (Parser.ofTokens (tokens ++ [])).parse.1 =
        .expr (.fn ps ss) :: (Parser.ofTokens []).parse.1 := by
  intro body tokens
  have hparse : (Parser.ofTokens (tokens ++ [])).parse.1 =
      [.expr (.fn [] []), .expr (.ident "x")] := by rfl
  refine ⟨by decide, by decide, hparse, ?_⟩
  rintro ⟨ps, ss, h⟩
  rw [hparse] at h
  cases h

end Monkey
