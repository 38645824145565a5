import Monkey.Parser.Completeness

/-!
# The parser accepts nothing but its grammar

The tokens read so far are kept in step with the stack. `Within` takes them
apart: statements that are complete, then for each open construct the tokens
that opened it. A step without an error puts its token where the construct that
it continues, or begins, expects one. At the end of input nothing is open, and
the tokens derive the statements.
-/

set_option autoImplicit false

namespace Monkey

/-- The statements lead up to `first`: whatever begins with it can follow them. -/
def Leads (ss : List Stmt) (ts : List Token) (first : Token) : Prop :=
  ∀ rest us next, us.headD next = first → Derives (.stmts rest) us next →
    Derives (.stmts (ss ++ rest)) (ts ++ us) next

def LeadingArguments (before : List Expr) (ts : List Token) : Prop :=
  ∀ e es us next, Derives (.arguments (e :: es)) us next →
    Derives (.arguments (before ++ e :: es)) (ts ++ us) next

/-- The tokens that open a hole, above constructs of the level given. -/
inductive Hole.Opens (level : Nat) : Hole → List Token → Prop where
  | prefixOp (o : Operator) (h : o = .not ∨ o = .minus) : Hole.Opens level (.prefixOp o) [.op o]
  | infixOp (o : Operator) (e : Expr) (ts : List Token) (h : level < o.level)
      (he : Derives (.chain level e) ts (.op o)) :
      Hole.Opens level (.infixOp o e) (ts ++ [.op o])
  | group : Hole.Opens level .group [.lparen]
  | condition : Hole.Opens level .condition [.keyword .cond, .lparen]
  | argument (f : Expr) (before : List Expr) (fs ts : List Token)
      (hf : Derives (.chain level f) fs .lparen) (hbefore : LeadingArguments before ts) :
      Hole.Opens level (.argument f before) (fs ++ .lparen :: ts)
  | bind (name : String) : Hole.Opens level (.bind name) [.keyword .bind, .ident name, .assign]
  | ret : Hole.Opens level .ret [.keyword .ret]

def Hole.Fits (stack : Stack) : Hole → Prop
  | .bind _ | .ret => Stack.base stack = true
  | _ => True

inductive Owner.Opens : Owner → List Token → Prop where
  | consequence (c : Expr) (cs : List Token) (hc : Derives (.expr 0 c) cs .rparen) :
      Owner.Opens (.consequence c) (.keyword .cond :: .lparen :: cs ++ [.rparen, .lbrace])
  | alternative (c : Expr) (a : Block) (cs as : List Token)
      (hc : Derives (.expr 0 c) cs .rparen) (ha : Derives (.block a) as (.keyword .otherwise)) :
      Owner.Opens (.alternative c a) (.keyword .cond :: .lparen :: cs ++ .rparen :: .lbrace ::
        as ++ [.keyword .otherwise, .lbrace])
  | body (ps : List String) :
      Owner.Opens (.body ps) (.keyword .fn :: .lparen :: paramTokens ps ++ [.rparen, .lbrace])

/-- The tokens complete the statements `done` and open the stack, and what they
opened last goes on with `first`. -/
inductive Within (done : List Stmt) : Stack → List Token → Token → Prop where
  | top (ts : List Token) (first : Token) (h : Leads done ts first) : Within done [] ts first
  | block (owner : Owner) (ss : Block) (rest : Stack) (os us ts : List Token) (first : Token)
      (hrest : Within done rest os (us.headD first)) (howner : owner.Opens us)
      (hss : Leads ss ts first) : Within done (.block owner ss :: rest) (os ++ us ++ ts) first
  | hole (hole : Hole) (rest : Stack) (os us : List Token) (first : Token)
      (hrest : Within done rest os (us.headD first)) (hhole : hole.Opens (Stack.level rest) us)
      (hfits : hole.Fits rest) : Within done (.hole hole :: rest) (os ++ us) first

/-- The tokens of the construct that the mode is in, as far as they go. -/
def Mode.After (stack : Stack) : Mode → List Token → Prop
  | .statement, us => Stack.base stack = true ∧ us = []
  | .skip, _ => False
  | .operand, us => us = []
  | .operator e _, us => ∀ next, Derives (.chain (Stack.level stack) e) us next
  | .bindName, us => Stack.base stack = true ∧ us = [.keyword .bind]
  | .bindAssign name, us => Stack.base stack = true ∧ us = [.keyword .bind, .ident name]
  | .returned, us => Stack.base stack = true ∧ us = [.keyword .ret]
  | .condOpen, us => us = [.keyword .cond]
  | .consequenceOpen c, us =>
    ∃ cs, Derives (.expr 0 c) cs .rparen ∧ us = .keyword .cond :: .lparen :: cs ++ [.rparen]
  | .consequenceEnd c a, us => ∃ cs as, Derives (.expr 0 c) cs .rparen ∧
    (∀ next, Derives (.block a) as next) ∧
    us = .keyword .cond :: .lparen :: cs ++ .rparen :: .lbrace :: as
  | .alternativeOpen c a, us => ∃ cs as, Derives (.expr 0 c) cs .rparen ∧
    Derives (.block a) as (.keyword .otherwise) ∧
    us = .keyword .cond :: .lparen :: cs ++ .rparen :: .lbrace :: as ++ [.keyword .otherwise]
  | .fnOpen, us => us = [.keyword .fn]
  | .firstParam, us => us = [.keyword .fn, .lparen]
  | .param before, us =>
    before ≠ [] ∧ us = .keyword .fn :: .lparen :: paramTokens before ++ [.comma]
  | .paramEnd ps, us => ps ≠ [] ∧ us = .keyword .fn :: .lparen :: paramTokens ps
  | .bodyOpen ps, us => us = .keyword .fn :: .lparen :: paramTokens ps ++ [.rparen]
  | .arguments f, us =>
    ∃ fs, Derives (.chain (Stack.level stack) f) fs .lparen ∧ us = fs ++ [.lparen]

def Ended.After (stack : Stack) (t : Token) : Ended → List Token → Prop
  | .expr e _, us => Derives (.chain (Stack.level stack) e) us t
  | .stmt s, us => Stack.base stack = true ∧ ∀ vs next, vs.headD next = t → Terminated vs next →
    Derives (.stmt s) (us ++ vs) next
  | .nothing, us => Stack.base stack = true ∧ us = []
  | .broken _, _ | .refused, _ => False

def Control.After (done : List Stmt) (control : Control) (ts : List Token) : Prop :=
  ∃ os us, ts = os ++ us ∧ (∀ next, Within done control.stack os (us.headD next)) ∧
    control.mode.After control.stack us

/-- A move without errors on `t`, after the tokens `ts`: the tokens are still in
step with the control, or, at the end of input, derive the statements. -/
def Move.After (done : List Stmt) (ts : List Token) (t : Token) (move : Move) : Prop :=
  move.errors = [] →
    (t ≠ .eof ∧ move.control.After (done ++ move.statements) (ts ++ [t])) ∨
    (t = .eof ∧ Derives (.stmts (done ++ move.statements)) ts .eof)

theorem headD_append (ts us : List Token) (t : Token) :
    (ts ++ us).headD t = ts.headD (us.headD t) := by
  cases ts <;> rfl

theorem leads_nil (first : Token) : Leads [] [] first :=
  fun _ _ _ _ h => h

theorem leads_snoc {ss : List Stmt} {s : Stmt} {ts us : List Token} {first : Token}
    (h : Leads ss ts (us.headD first)) (hs : Derives (.stmt s) us first) :
    Leads (ss ++ [s]) (ts ++ us) first := by
  intro rest vs next hvs hrest
  subst hvs
  have hcons := Derives.cons s rest us vs next hs hrest
  have hall := h (s :: rest) (us ++ vs) next (headD_append us vs next) hcons
  simpa using hall

theorem leads_stmts {ss : List Stmt} {ts : List Token} {next : Token} (h : Leads ss ts next) :
    Derives (.stmts ss) ts next := by
  simpa using h [] [] next rfl (.nil next)

theorem leadingArguments_nil : LeadingArguments [] [] :=
  fun _ _ _ _ h => h

theorem leadingArguments_snoc {before : List Expr} {e : Expr} {ts us : List Token}
    (h : LeadingArguments before ts) (he : Derives (.expr 0 e) us .comma) :
    LeadingArguments (before ++ [e]) (ts ++ us ++ [.comma]) := by
  intro f fs vs next hfs
  have hcons := Derives.argument e f fs us vs next he hfs
  simpa using h e (f :: fs) (us ++ .comma :: vs) next hcons

theorem leadingArguments_last {before : List Expr} {e : Expr} {ts us : List Token}
    (h : LeadingArguments before ts) (he : Derives (.expr 0 e) us .rparen) :
    Derives (.arguments (before ++ [e])) (ts ++ us) .rparen :=
  h e [] us .rparen (.lastArgument e us .rparen he)

theorem paramTokens_snoc {before : List String} (name : String) (h : before ≠ []) :
    paramTokens (before ++ [name]) = paramTokens before ++ [.comma, .ident name] := by
  induction before with
  | nil => exact absurd rfl h
  | cons first rest ih =>
    cases rest with
    | nil => rfl
    | cons second rest =>
      have hrest := ih (by simp)
      simp only [List.cons_append, paramTokens] at hrest ⊢
      rw [hrest]

theorem Owner.opens_head {owner : Owner} {us : List Token} (h : owner.Opens us) (t u : Token) :
    us.headD t = us.headD u := by
  cases h <;> rfl

theorem Hole.opens_head {hole : Hole} {level : Nat} {us : List Token} (h : hole.Opens level us)
    (t u : Token) : us.headD t = us.headD u := by
  cases h <;> simp

theorem Owner.derives_expr {owner : Owner} {ss : Block} {us ts : List Token} {next : Token}
    (howner : owner.Opens us) (hss : Derives (.block ss) ts next)
    (hnext : next ≠ .keyword .otherwise ∨ owner.close ss = .operator (owner.expr ss) true) :
    Derives (.atom (owner.expr ss)) (us ++ ts) next := by
  cases howner with
  | consequence c cs hc =>
    have helse : next ≠ .keyword .otherwise := hnext.resolve_right (by simp [Owner.close])
    simpa [Owner.expr] using Derives.cond c ss cs ts next hc hss helse
  | alternative c a cs as hc ha =>
    simpa [Owner.expr] using Derives.condElse c a ss cs as ts next hc ha hss
  | body ps => simpa [Owner.expr] using Derives.fn ps ss ts next hss

namespace Move

theorem after_quiet {done : List Stmt} {ts : List Token} {t : Token} {control : Control}
    (ht : t ≠ .eof) (h : control.After done (ts ++ [t])) : (quiet control).After done ts t := by
  intro _
  have hdone : done ++ (quiet control).statements = done := List.append_nil done
  rw [hdone]
  exact .inl ⟨ht, h⟩

theorem after_withError {done : List Stmt} {ts : List Token} {t : Token} (error : ParseError)
    (move : Move) : (move.withError error).After done ts t :=
  fun h => absurd h (List.cons_ne_nil _ _)

theorem after_withStatement {done : List Stmt} {ts : List Token} {t : Token} {s : Stmt}
    {move : Move} (h : move.After (done ++ [s]) ts t) : (move.withStatement s).After done ts t := by
  intro herrors
  have hmove := h herrors
  rw [List.append_assoc] at hmove
  exact hmove

end Move

namespace Control

theorem after_nothing (mode : Mode) {done : List Stmt} {stack : Stack} {ts : List Token}
    (h : ∀ next, Within done stack ts next) (hmode : mode.After stack []) :
    After done ⟨mode, stack⟩ ts :=
  ⟨ts, [], (List.append_nil ts).symm, h, hmode⟩

theorem after_first {done : List Stmt} {mode : Mode} {stack : Stack} {ts : List Token} {t : Token}
    (h : Within done stack ts t) (hmode : mode.After stack [t]) :
    After done ⟨mode, stack⟩ (ts ++ [t]) :=
  ⟨ts, [t], rfl, fun _ => h, hmode⟩

theorem extendExpr_after {done : List Stmt} {stack : Stack} {e : Expr} {os us : List Token}
    {t : Token} {control : Control} (h : extendExpr? t (Stack.level stack) e stack = some control)
    (hwithin : Within done stack os (us.headD t))
    (he : Derives (.chain (Stack.level stack) e) us t) :
    t ≠ .eof ∧ control.After done (os ++ us ++ [t]) := by
  unfold extendExpr? at h
  split at h
  · next o =>
    split at h
    · next hlevel =>
      cases h
      have hopens : Hole.Opens (Stack.level stack) (.infixOp o e) (us ++ [.op o]) :=
        .infixOp o e us hlevel he
      have hhead : ∀ next, (us ++ [Token.op o]).headD next = us.headD (.op o) := headD_append us _
      have hhole : ∀ next,
        Within done (.hole (.infixOp o e) :: stack) (os ++ (us ++ [.op o])) next :=
        fun next => .hole _ _ _ _ next (by rw [hhead]; exact hwithin) hopens trivial
      rw [List.append_assoc]
      exact ⟨by simp, after_nothing .operand hhole rfl⟩
    · cases h
  · cases h
    rw [List.append_assoc]
    have hhead : ∀ next, (us ++ [Token.lparen]).headD next = us.headD .lparen := headD_append us _
    exact ⟨by simp, os, us ++ [.lparen], rfl, fun next => by rw [hhead]; exact hwithin, us, he, rfl⟩
  · cases h

theorem extendExpr_level {t : Token} {level : Nat} {e : Expr} {stack : Stack}
    (h : extendExpr? t level e stack = none) : t.level ≤ level := by
  unfold extendExpr? at h
  split at h
  · next o =>
    by_cases hlevel : level < o.level
    · simp [hlevel] at h
    · exact Nat.le_of_not_lt hlevel
  · cases h
  · next hop hlparen =>
    have hzero : t.level = 0 := by
      unfold Token.level
      split
      · next o => exact absurd rfl (hop o)
      · exact absurd rfl hlparen
      · rfl
    omega

theorem startExpr_after {done : List Stmt} {stack : Stack} {ts : List Token} {t : Token}
    {control : Control} (h : startExpr t stack = .ok control) (hwithin : Within done stack ts t) :
    control.After done (ts ++ [t]) := by
  unfold startExpr at h
  split at h
  · next name =>
    cases h
    exact after_first hwithin fun next => .start _ _ _ next (.ident name next)
  · next digits =>
    split at h
    · next value hvalue =>
      cases h
      exact after_first hwithin fun next => .start _ _ _ next (.int digits value next hvalue)
    · cases h
  · next value =>
    cases h
    exact after_first hwithin fun next => .start _ _ _ next (.bool value next)
  · cases h
    exact after_nothing .operand
      (fun next => .hole _ _ _ _ next hwithin (.prefixOp .not (.inl rfl)) trivial) rfl
  · cases h
    exact after_nothing .operand
      (fun next => .hole _ _ _ _ next hwithin (.prefixOp .minus (.inr rfl)) trivial) rfl
  · cases h
    exact after_nothing .operand (fun next => .hole _ _ _ _ next hwithin .group trivial) rfl
  · cases h
    exact after_first hwithin rfl
  · cases h
    exact after_first hwithin rfl
  · cases h

theorem startStmt_after {done : List Stmt} {stack : Stack} {ts : List Token} {t : Token}
    (hbase : Stack.base stack = true) (hwithin : Within done stack ts t) :
    (startStmt t stack).After done ts t := by
  unfold startStmt
  split
  · exact Move.after_quiet (by simp) (after_first hwithin ⟨hbase, rfl⟩)
  · exact Move.after_quiet (by simp) (after_first hwithin ⟨hbase, rfl⟩)
  · split
    · next control hcontrol =>
      exact Move.after_quiet (startExpr_ne hcontrol).2.2.1 (startExpr_after hcontrol hwithin)
    · split <;> exact fun h => absurd h (List.cons_ne_nil _ _)

theorem expr_after_stmt {stack : Stack} {e : Expr} {us : List Token} {t : Token}
    (hbase : Stack.base stack = true) (he : Derives (.chain (Stack.level stack) e) us t)
    (ht : t.level ≤ 0) : (Ended.stmt (.expr e)).After stack t us := by
  have hlevel : Stack.level stack = 0 := Nat.le_zero.1 (level_base hbase)
  rw [hlevel] at he
  constructor
  · exact hbase
  · intro vs next hvs hend
    exact .expr e us vs next (hvs ▸ .whole 0 e us t he ht) hend

theorem bind_after_stmt {stack : Stack} {name : String} {e : Expr} {us : List Token} {t : Token}
    (hbase : Stack.base stack = true) (he : Derives (.expr 0 e) us t) :
    (Ended.stmt (.bind name e)).After stack t
      ([.keyword .bind, .ident name, .assign] ++ us) := by
  constructor
  · exact hbase
  · intro vs next hvs hend
    exact .bind name e us vs next (hvs ▸ he) hend

theorem ret_after_stmt {stack : Stack} {e : Expr} {us : List Token} {t : Token}
    (hbase : Stack.base stack = true) (he : Derives (.expr 0 e) us t) :
    (Ended.stmt (.ret (some e))).After stack t ([.keyword .ret] ++ us) := by
  constructor
  · exact hbase
  · intro vs next hvs hend
    exact .ret e us vs next (hvs ▸ he) hend

theorem ret_after_none {stack : Stack} {t : Token} (hbase : Stack.base stack = true)
    (ht : t = .semicolon ∨ t = .rbrace ∨ t = .eof) :
    (Ended.stmt (.ret none)).After stack t [.keyword .ret] := by
  constructor
  · exact hbase
  · intro vs next hvs hend
    cases hend with
    | semicolon => exact .retSemicolon next
    | bare _ hne =>
      subst hvs
      exact .retOpen next (ht.resolve_left hne)

theorem argument_within {done : List Stmt} {rest : Stack} {f e : Expr} {before : List Expr}
    {os fs ts us : List Token}
    (hrest : Within done rest os ((fs ++ .lparen :: ts ++ us).headD .comma))
    (hf : Derives (.chain (Stack.level rest) f) fs .lparen) (hbefore : LeadingArguments before ts)
    (he : Derives (.expr 0 e) us .comma) (next : Token) :
    Within done (.hole (.argument f (before ++ [e])) :: rest)
      (os ++ (fs ++ .lparen :: (ts ++ us ++ [.comma]))) next := by
  have hopens := Hole.Opens.argument f (before ++ [e]) fs _ hf (leadingArguments_snoc hbefore he)
  have hfirst : (fs ++ Token.lparen :: (ts ++ us ++ [.comma])).headD next =
      (fs ++ Token.lparen :: ts ++ us).headD .comma := by
    cases fs <;> rfl
  exact .hole _ _ _ _ next (by rw [hfirst]; exact hrest) hopens trivial

theorem stmt_after_semicolon {stack : Stack} {s : Stmt} {us : List Token}
    (h : (Ended.stmt s).After stack .semicolon us) (next : Token) :
    Derives (.stmt s) (us ++ [.semicolon]) next :=
  h.2 [.semicolon] next rfl (.semicolon next)

theorem stmt_after_bare {stack : Stack} {s : Stmt} {us : List Token} {t : Token}
    (h : (Ended.stmt s).After stack t us) (ht : t ≠ .semicolon) : Derives (.stmt s) us t := by
  have hs := h.2 [] t rfl (.bare t ht)
  rwa [List.append_nil] at hs

theorem top_leads {done : List Stmt} {ts : List Token} {first : Token}
    (h : Within done [] ts first) : Leads done ts first := by
  cases h with
  | top _ _ h => exact h

theorem between_after_top {done : List Stmt} {ts : List Token} {t : Token} (h : Leads done ts t) :
    (atTop.between t).After done ts t := by
  unfold atTop.between
  by_cases ht : t = .eof
  · subst ht
    rw [if_pos rfl]
    intro _
    have hdone : Derives (.stmts (done ++ [])) ts .eof := by
      rw [List.append_nil]
      exact leads_stmts h
    exact .inr ⟨rfl, hdone⟩
  · rw [if_neg ht]
    exact startStmt_after rfl (.top ts t h)

theorem stmt_after_top {done : List Stmt} {s : Stmt} {ts us : List Token} {t : Token}
    (h : Leads done ts (us.headD t)) (hs : (Ended.stmt s).After [] t us) :
    (atTop.afterStmt t s).After done (ts ++ us) t := by
  unfold atTop.afterStmt
  by_cases ht : t = .semicolon
  · subst ht
    rw [if_pos rfl]
    intro _
    have hnext : ∀ next, Within (done ++ [s]) [] (ts ++ (us ++ [.semicolon])) next := by
      intro next
      have hleads : Leads done ts ((us ++ [Token.semicolon]).headD next) := by
        rw [headD_append]
        exact h
      exact .top _ next (leads_snoc hleads (stmt_after_semicolon hs next))
    rw [List.append_assoc]
    exact .inl ⟨by simp, after_nothing .statement hnext ⟨rfl, rfl⟩⟩
  · rw [if_neg ht]
    exact Move.after_withStatement (between_after_top (leads_snoc h (stmt_after_bare hs ht)))

theorem atTop_after {done : List Stmt} {ended : Ended} {ts us : List Token} {t : Token}
    (h : Within done [] ts (us.headD t)) (hended : ended.After [] t us) :
    (atTop t ended).After done (ts ++ us) t := by
  cases ended with
  | expr e braced =>
    simp only [atTop]
    split
    · next control hcontrol =>
      have hafter := extendExpr_after hcontrol h hended
      exact Move.after_quiet hafter.1 hafter.2
    · next hnone =>
      exact stmt_after_top (top_leads h) (expr_after_stmt rfl hended (extendExpr_level hnone))
  | stmt s => exact stmt_after_top (top_leads h) hended
  | nothing =>
    obtain ⟨_, rfl⟩ := hended
    rw [List.append_nil]
    exact between_after_top (top_leads h)
  | broken braced => exact hended.elim
  | refused => exact hended.elim

def Resumes (done : List Stmt) (stack : Stack) (os : List Token) (t : Token)
    (resume : Ended → Move) : Prop :=
  ∀ ended us, Within done stack os (us.headD t) → ended.After stack t us →
    (resume ended).After done (os ++ us) t

theorem Owner.close_after {owner : Owner} {ss : Block} {rest : Stack} {us ts : List Token}
    (howner : owner.Opens us) (hblock : ∀ next, Derives (.block ss) ts next) :
    (owner.close ss).After rest (us ++ ts) := by
  cases howner with
  | consequence c cs hc => exact ⟨cs, ts, hc, hblock, by simp⟩
  | alternative c a cs as hc ha =>
    intro next
    exact .start _ _ _ next
      (Owner.derives_expr (.alternative c a cs as hc ha) (hblock next) (.inr rfl))
  | body ps =>
    intro next
    exact .start _ _ _ next (Owner.derives_expr (.body ps) (hblock next) (.inr rfl))

theorem between_after_block {done : List Stmt} {owner : Owner} {ss : Block} {rest : Stack}
    {os us ts : List Token} {t : Token} {resume : Ended → Move}
    (hresume : Resumes done rest os t resume) (hrest : Within done rest os (us.headD t))
    (howner : owner.Opens us) (hss : Leads ss ts t) :
    (atBlock.between t owner rest resume ss).After done (os ++ us ++ ts) t := by
  have hnext : ∀ vs next, Within done rest os ((us ++ vs).headD next) := by
    intro vs next
    rw [headD_append, owner.opens_head howner _ t]
    exact hrest
  unfold atBlock.between
  by_cases hbrace : t = .rbrace
  · subst hbrace
    rw [if_pos rfl]
    have hblock : ∀ next, Derives (.block ss) (ts ++ [.rbrace]) next :=
      fun next => .closed ss ts next (leads_stmts hss)
    have hcontrol : After done ⟨owner.close ss, rest⟩ (os ++ us ++ ts ++ [.rbrace]) :=
      ⟨os, us ++ (ts ++ [.rbrace]), by simp, hnext _, Owner.close_after howner hblock⟩
    exact Move.after_quiet (by simp) hcontrol
  · rw [if_neg hbrace]
    by_cases heof : t = .eof
    · subst heof
      rw [if_pos rfl, List.append_assoc]
      have hblock : Derives (.block ss) ts .eof := .unclosed ss ts (leads_stmts hss)
      have hatom := Owner.derives_expr howner hblock (.inl (by simp))
      exact hresume (.expr (owner.expr ss) true) (us ++ ts) (hnext ts .eof) (.start _ _ _ _ hatom)
    · rw [if_neg heof]
      exact startStmt_after rfl (.block owner ss rest os us ts t hrest howner hss)

theorem stmt_after_block {done : List Stmt} {owner : Owner} {ss : Block} {s : Stmt} {rest : Stack}
    {os us ts vs : List Token} {t : Token} {resume : Ended → Move}
    (hresume : Resumes done rest os t resume) (hrest : ∀ next, Within done rest os (us.headD next))
    (howner : owner.Opens us) (hss : Leads ss ts (vs.headD t))
    (hs : (Ended.stmt s).After (.block owner ss :: rest) t vs) :
    (atBlock.afterStmt t owner ss rest resume s).After done (os ++ us ++ ts ++ vs) t := by
  unfold atBlock.afterStmt
  by_cases ht : t = .semicolon
  · subst ht
    rw [if_pos rfl]
    have hnext : ∀ next, Within done (.block owner (ss ++ [s]) :: rest)
        (os ++ us ++ (ts ++ (vs ++ [.semicolon]))) next := by
      intro next
      have hleads : Leads ss ts ((vs ++ [Token.semicolon]).headD next) := by
        rw [headD_append]
        exact hss
      exact .block _ _ _ _ _ _ next (hrest next) howner
        (leads_snoc hleads (stmt_after_semicolon hs next))
    have hcontrol := after_nothing .statement hnext ⟨rfl, rfl⟩
    exact Move.after_quiet (by simp) (by simpa using hcontrol)
  · rw [if_neg ht, List.append_assoc (os ++ us)]
    exact between_after_block hresume (hrest t) howner (leads_snoc hss (stmt_after_bare hs ht))

theorem atBlock_after {done : List Stmt} {owner : Owner} {ss : Block} {rest : Stack}
    {ended : Ended} {os us ts vs : List Token} {t : Token} {resume : Ended → Move}
    (hresume : Resumes done rest os t resume) (hrest : ∀ next, Within done rest os (us.headD next))
    (howner : owner.Opens us) (hss : Leads ss ts (vs.headD t))
    (hended : ended.After (.block owner ss :: rest) t vs) :
    (atBlock t owner ss rest resume ended).After done (os ++ us ++ ts ++ vs) t := by
  cases ended with
  | expr e braced =>
    simp only [atBlock]
    split
    · next control hcontrol =>
      have hwithin : Within done (.block owner ss :: rest) (os ++ us ++ ts) (vs.headD t) :=
        .block _ _ _ _ _ _ _ (hrest _) howner hss
      have hafter := extendExpr_after hcontrol hwithin hended
      exact Move.after_quiet hafter.1 hafter.2
    · next hnone =>
      exact stmt_after_block hresume hrest howner hss
        (expr_after_stmt rfl hended (extendExpr_level hnone))
  | stmt s => exact stmt_after_block hresume hrest howner hss hended
  | nothing =>
    obtain ⟨_, rfl⟩ := hended
    rw [List.append_nil]
    exact between_after_block hresume (hrest t) howner hss
  | broken braced => exact hended.elim
  | refused => exact hended.elim

section

variable {done : List Stmt} {rest : Stack} {e : Expr} {os us vs : List Token} {t : Token}
  {resume : Ended → Move}

theorem closed_after {mode : Mode} (hrest : ∀ next, Within done rest os (us.headD next))
    (ht : t ≠ .eof) (hmode : mode.After rest (us ++ vs ++ [t])) :
    (Move.quiet ⟨mode, rest⟩).After done (os ++ us ++ vs) t := by
  have hcontrol : After done ⟨mode, rest⟩ (os ++ us ++ vs ++ [t]) := by
    refine ⟨os, us ++ vs ++ [t], by simp, fun next => ?_, hmode⟩
    rw [headD_append, headD_append]
    exact hrest _
  exact Move.after_quiet ht hcontrol

theorem group_after {braced : Bool} (hrest : ∀ next, Within done rest os (us.headD next))
    (hus : us = [.lparen]) (he : Derives (.expr 0 e) vs t) :
    (fillHole t .group e braced rest resume).After done (os ++ us ++ vs) t := by
  simp only [fillHole]
  split
  · next ht =>
    subst ht hus
    exact closed_after hrest (by simp) fun next => .start _ _ _ next (.group e vs next he)
  · exact Move.after_withError _ _

theorem condition_after {braced : Bool} (hrest : ∀ next, Within done rest os (us.headD next))
    (hus : us = [.keyword .cond, .lparen]) (he : Derives (.expr 0 e) vs t) :
    (fillHole t .condition e braced rest resume).After done (os ++ us ++ vs) t := by
  simp only [fillHole]
  split
  · next ht =>
    subst ht hus
    exact closed_after hrest (by simp) ⟨vs, he, rfl⟩
  · exact Move.after_withError _ _

theorem argument_after {braced : Bool} {f : Expr} {before : List Expr} {fs ts : List Token}
    (hrest : ∀ next, Within done rest os ((fs ++ .lparen :: ts).headD next))
    (hf : Derives (.chain (Stack.level rest) f) fs .lparen) (hbefore : LeadingArguments before ts)
    (he : Derives (.expr 0 e) vs t) :
    (fillHole t (.argument f before) e braced rest resume).After done
      (os ++ (fs ++ .lparen :: ts) ++ vs) t := by
  simp only [fillHole]
  split
  · next ht =>
    subst ht
    have hfirst : Within done rest os ((fs ++ .lparen :: ts ++ vs).headD .comma) := by
      rw [headD_append]
      exact hrest _
    have hhole := argument_within hfirst hf hbefore he
    exact Move.after_quiet (by simp) (by simpa using after_nothing .operand hhole rfl)
  · split
    · next ht =>
      subst ht
      have hall := leadingArguments_last hbefore he
      have hcall := Derives.call (Stack.level rest) f (before ++ [e]) fs (ts ++ vs)
      exact closed_after hrest (by simp) fun next => by simpa using hcall next hf hall
    · exact Move.after_withError _ _

theorem fillHole_after {hole : Hole} {braced : Bool} (hresume : Resumes done rest os t resume)
    (hrest : ∀ next, Within done rest os (us.headD next)) (hhole : hole.Opens (Stack.level rest) us)
    (hfits : hole.Fits rest) (he : Derives (.expr hole.level e) vs t) :
    (fillHole t hole e braced rest resume).After done (os ++ us ++ vs) t := by
  have hdone : ∀ ended, ended.After rest t (us ++ vs) →
      (resume ended).After done (os ++ us ++ vs) t := by
    intro ended hended
    rw [List.append_assoc]
    have hfirst : Within done rest os ((us ++ vs).headD t) := by
      rw [headD_append]
      exact hrest _
    exact hresume ended (us ++ vs) hfirst hended
  cases hhole with
  | prefixOp o ho => exact hdone _ (.start _ _ _ t (.prefixOp o e vs t ho he))
  | infixOp o left ts ho hleft =>
    have hboth : Derives (.chain (Stack.level rest) (.infixOp o left e))
        (ts ++ [.op o] ++ vs) t := by
      rw [List.append_assoc]
      exact .infixOp _ o left e ts vs t ho hleft he
    exact hdone _ hboth
  | group => exact group_after hrest rfl he
  | condition => exact condition_after hrest rfl he
  | argument f before fs ts hf hbefore => exact argument_after hrest hf hbefore he
  | bind name => exact hdone _ (bind_after_stmt hfits he)
  | ret => exact hdone _ (ret_after_stmt hfits he)

end

theorem settle_after {done : List Stmt} {stack : Stack} {os : List Token} (t : Token) :
    Resumes done stack os t (settle t stack) := by
  -- What closes a construct hands an expression or a statement to the constructs below.
  induction stack generalizing os with
  | nil =>
    intro ended us hwithin hended
    exact atTop_after hwithin hended
  | cons frame rest ih =>
    intro ended us hwithin hended
    cases hwithin with
    | block owner ss _ os hs ts _ hrest howner hss =>
      have hfree : ∀ next, Within done rest os (hs.headD next) := by
        intro next
        rw [owner.opens_head howner next (us.headD t)]
        exact hrest
      exact atBlock_after ih hfree howner hss hended
    | hole hole _ os hs _ hrest hhole hfits =>
      have hfree : ∀ next, Within done rest os (hs.headD next) := by
        intro next
        rw [Hole.opens_head hhole next (us.headD t)]
        exact hrest
      cases ended with
      | expr e braced =>
        simp only [settle]
        split
        · next control hcontrol =>
          have hafter := extendExpr_after hcontrol (.hole _ _ _ _ _ hrest hhole hfits) hended
          exact Move.after_quiet hafter.1 hafter.2
        · next hnone =>
          exact fillHole_after ih hfree hhole hfits
            (.whole _ e us t hended (extendExpr_level hnone))
      | stmt s => exact absurd hended.1 (by simp [Stack.base])
      | nothing => exact absurd hended.1 (by simp [Stack.base])
      | broken braced => exact hended.elim
      | refused => exact hended.elim

theorem operand_after {done : List Stmt} {stack : Stack} {ts : List Token} {t : Token}
    (h : Within done stack ts t) : (operand t stack).After done ts t := by
  unfold operand
  split
  · next control hcontrol =>
    exact Move.after_quiet (startExpr_ne hcontrol).2.2.1 (startExpr_after hcontrol h)
  · exact Move.after_withError _ _

theorem expect_after {done : List Stmt} {stack : Stack} {ts : List Token} {t expected : Token}
    {next : Control} (hne : expected ≠ .eof) (h : next.After done (ts ++ [expected])) :
    (expect expected t stack next).After done ts t := by
  unfold expect
  by_cases ht : t = expected
  · subst ht
    rw [if_pos rfl]
    exact Move.after_quiet hne h
  · rw [if_neg ht]
    exact Move.after_withError _ _

theorem expectName_after {done : List Stmt} {stack : Stack} {ts : List Token} {t : Token}
    {next : String → Control} (h : ∀ name, (next name).After done (ts ++ [.ident name])) :
    (expectName t stack next).After done ts t := by
  unfold expectName
  split
  · next name => exact Move.after_quiet (by simp) (h name)
  · exact Move.after_withError _ _

theorem lbrace_after {done : List Stmt} {owner : Owner} {stack : Stack} {os us : List Token}
    {t : Token} (h : ∀ next, Within done stack os (us.headD next))
    (howner : owner.Opens (us ++ [.lbrace])) :
    (expect .lbrace t stack ⟨.statement, .block owner [] :: stack⟩).After done (os ++ us) t := by
  have hnext : ∀ next,
      Within done (.block owner [] :: stack) (os ++ (us ++ [.lbrace]) ++ []) next := by
    intro next
    have hrest : Within done stack os ((us ++ [Token.lbrace]).headD next) := by
      rw [headD_append]
      exact h _
    exact .block owner [] stack os _ [] next hrest howner (leads_nil next)
  have hcontrol := after_nothing .statement hnext ⟨rfl, rfl⟩
  rw [List.append_nil, ← List.append_assoc] at hcontrol
  exact expect_after (by simp) hcontrol

section

variable {done : List Stmt} {stack : Stack} {os us : List Token}
  (hwithin : ∀ next, Within done stack os (us.headD next)) (t : Token)

include hwithin

theorem after_more {mode : Mode} (hmode : mode.After stack (us ++ [t])) :
    Control.After done ⟨mode, stack⟩ (os ++ us ++ [t]) := by
  refine ⟨os, us ++ [t], List.append_assoc _ _ _, fun next => ?_, hmode⟩
  rw [headD_append]
  exact hwithin t

theorem bindAssign_after (name : String) (h : (Mode.bindAssign name).After stack us) :
    (step ⟨.bindAssign name, stack⟩ t).After done (os ++ us) t := by
  obtain ⟨hbase, rfl⟩ := h
  have hnext : ∀ next, Within done (.hole (.bind name) :: stack)
      (os ++ [.keyword .bind, .ident name, .assign]) next :=
    fun next => .hole _ _ _ _ next (hwithin next) (.bind name) hbase
  exact expect_after (by simp) (by simpa using after_nothing .operand hnext rfl)

theorem returned_after (h : Mode.returned.After stack us) :
    (step ⟨.returned, stack⟩ t).After done (os ++ us) t := by
  obtain ⟨hbase, rfl⟩ := h
  simp only [step]
  split
  · next ht => exact settle_after t _ _ (hwithin t) (ret_after_none hbase ht)
  · exact operand_after (.hole _ _ _ _ t (hwithin t) .ret hbase)

theorem condOpen_after (h : Mode.condOpen.After stack us) :
    (step ⟨.condOpen, stack⟩ t).After done (os ++ us) t := by
  cases h
  have hnext : ∀ next, Within done (.hole .condition :: stack)
      (os ++ [.keyword .cond, .lparen]) next :=
    fun next => .hole _ _ _ _ next (hwithin next) .condition trivial
  exact expect_after (by simp) (by simpa using after_nothing .operand hnext rfl)

theorem consequenceEnd_after (c : Expr) (a : Block)
    (h : (Mode.consequenceEnd c a).After stack us) :
    (step ⟨.consequenceEnd c a, stack⟩ t).After done (os ++ us) t := by
  obtain ⟨cs, as, hc, ha, rfl⟩ := h
  simp only [step]
  split
  · next ht =>
    subst ht
    exact Move.after_quiet (by simp) (after_more hwithin _ ⟨cs, as, hc, ha _, rfl⟩)
  · next ht =>
    exact settle_after t _ _ (hwithin t) (.start _ _ _ t (.cond c a cs as t hc (ha t) ht))

theorem firstParam_after (h : Mode.firstParam.After stack us) :
    (step ⟨.firstParam, stack⟩ t).After done (os ++ us) t := by
  cases h
  simp only [step]
  split
  · next ht =>
    subst ht
    exact Move.after_quiet (by simp) (after_more hwithin _ rfl)
  · exact expectName_after fun name => after_more hwithin _ ⟨by simp, rfl⟩

theorem param_after (before : List String) (h : (Mode.param before).After stack us) :
    (step ⟨.param before, stack⟩ t).After done (os ++ us) t := by
  obtain ⟨hbefore, rfl⟩ := h
  have hmore : ∀ name, .keyword .fn :: .lparen :: paramTokens before ++ [.comma] ++ [.ident name] =
      .keyword .fn :: .lparen :: paramTokens (before ++ [name]) := by
    intro name
    simp [paramTokens_snoc name hbefore]
  exact expectName_after fun name => after_more hwithin _ ⟨by simp, hmore name⟩

theorem paramEnd_after (ps : List String) (h : (Mode.paramEnd ps).After stack us) :
    (step ⟨.paramEnd ps, stack⟩ t).After done (os ++ us) t := by
  obtain ⟨hps, rfl⟩ := h
  simp only [step]
  split
  · next ht =>
    subst ht
    exact Move.after_quiet (by simp) (after_more hwithin _ ⟨hps, rfl⟩)
  · exact expect_after (by simp) (after_more hwithin _ rfl)

theorem arguments_after (f : Expr) (h : (Mode.arguments f).After stack us) :
    (step ⟨.arguments f, stack⟩ t).After done (os ++ us) t := by
  obtain ⟨fs, hf, rfl⟩ := h
  simp only [step]
  split
  · next ht =>
    subst ht
    have hcall : (Mode.operator (.call f []) false).After stack (fs ++ [.lparen] ++ [.rparen]) := by
      intro next
      simpa using Derives.call _ f [] fs [] next hf (.noArgument .rparen)
    exact Move.after_quiet (by simp) (after_more hwithin _ hcall)
  · exact operand_after (.hole _ _ _ _ t (hwithin t)
      (.argument f [] fs [] hf leadingArguments_nil) trivial)

end

theorem step_after {done : List Stmt} {control : Control} {ts : List Token}
    (h : control.After done ts) (t : Token) : (control.step t).After done ts t := by
  obtain ⟨mode, stack⟩ := control
  obtain ⟨os, us, rfl, hwithin, hmode⟩ := h
  cases mode with
  | statement =>
    obtain ⟨hbase, rfl⟩ := hmode
    exact settle_after t .nothing [] (hwithin t) ⟨hbase, rfl⟩
  | skip => exact hmode.elim
  | operand =>
    cases hmode
    rw [List.append_nil]
    exact operand_after (hwithin t)
  | operator e braced => exact settle_after t (.expr e braced) us (hwithin t) (hmode t)
  | bindName =>
    obtain ⟨hbase, rfl⟩ := hmode
    exact expectName_after fun name => after_more hwithin _ ⟨hbase, rfl⟩
  | bindAssign name => exact bindAssign_after hwithin t name hmode
  | returned => exact returned_after hwithin t hmode
  | condOpen => exact condOpen_after hwithin t hmode
  | consequenceOpen c =>
    obtain ⟨cs, hc, rfl⟩ := hmode
    exact lbrace_after hwithin (by simpa using Owner.Opens.consequence c cs hc)
  | consequenceEnd c a => exact consequenceEnd_after hwithin t c a hmode
  | alternativeOpen c a =>
    obtain ⟨cs, as, hc, ha, rfl⟩ := hmode
    exact lbrace_after hwithin (by simpa using Owner.Opens.alternative c a cs as hc ha)
  | fnOpen =>
    cases hmode
    exact expect_after (by simp) (after_more hwithin _ rfl)
  | firstParam => exact firstParam_after hwithin t hmode
  | param before => exact param_after hwithin t before hmode
  | paramEnd ps => exact paramEnd_after hwithin t ps hmode
  | bodyOpen ps =>
    cases hmode
    exact lbrace_after hwithin (by simpa using Owner.Opens.body ps)
  | arguments f => exact arguments_after hwithin t f hmode

theorem run_after {done : List Stmt} {control : Control} {os ts : List Token} (heof : .eof ∉ ts)
    (h : control.After done os) (herrors : (control.run ts).errors = []) :
    (control.run ts).control.After (done ++ (control.run ts).statements) (os ++ ts) := by
  induction ts generalizing done control os with
  | nil =>
    rw [List.append_nil]
    have hdone : done ++ (run control []).statements = done := List.append_nil done
    rw [hdone]
    exact h
  | cons t ts ih =>
    have hboth : (control.step t).errors = [] ∧ ((control.step t).control.run ts).errors = [] :=
      List.append_eq_nil_iff.1 herrors
    have hne : t ≠ .eof := fun ht => heof (ht ▸ List.mem_cons_self)
    have hrest : .eof ∉ ts := fun hts => heof (List.mem_cons_of_mem t hts)
    have hstep := (step_after h t hboth.1).resolve_right fun ht => hne ht.1
    have hrun := ih hrest hstep.2 hboth.2
    rw [List.append_assoc, List.append_assoc] at hrun
    exact hrun

theorem idle_after : idle.After [] [] :=
  after_nothing .statement (fun next => .top [] next (leads_nil next)) ⟨rfl, rfl⟩

end Control

theorem derives_of_run {tokens : List Token} (heof : .eof ∉ tokens)
    (h : (Control.idle.run (tokens ++ [.eof])).errors = []) :
    Program.DerivedFrom (Control.idle.run (tokens ++ [.eof])).statements tokens := by
  rw [Control.run_append, Control.run_single] at h ⊢
  have hboth := List.append_eq_nil_iff.1 h
  have hrun := Control.run_after heof Control.idle_after hboth.1
  have hend := (Control.step_after hrun .eof hboth.2).resolve_left fun ht => ht.1 rfl
  exact hend.2

/-- The parser accepts the tokens that derive a program, with that program, and
reports errors for all others. -/
theorem parseProgram_iff_derives (tokens : List Token) (heof : .eof ∉ tokens) :
    (∀ program, (Parser.ofTokens tokens).parseProgram = .ok program ↔
      Program.DerivedFrom program tokens) ∧
    ((¬∃ program, Program.DerivedFrom program tokens) →
      ∃ errors, errors ≠ [] ∧ (Parser.ofTokens tokens).parseProgram = .error errors) := by
  have hparse : (Parser.ofTokens tokens).parseProgram =
      if (Control.idle.run (tokens ++ [.eof])).errors.isEmpty then
        .ok (Control.idle.run (tokens ++ [.eof])).statements
      else .error (Control.idle.run (tokens ++ [.eof])).errors := rfl
  have hsound : ∀ program, (Parser.ofTokens tokens).parseProgram = .ok program →
      Program.DerivedFrom program tokens := by
    intro program h
    by_cases hempty : (Control.idle.run (tokens ++ [.eof])).errors = []
    · rw [hparse, hempty] at h
      cases h
      exact derives_of_run heof hempty
    · simp [hparse, hempty] at h
  constructor
  · intro program
    exact ⟨hsound program, parseProgram_of_derives⟩
  · intro hnone
    by_cases hempty : (Control.idle.run (tokens ++ [.eof])).errors = []
    · exact absurd ⟨_, derives_of_run heof hempty⟩ hnone
    · exact ⟨_, hempty, by simp [hparse, hempty]⟩

/-- Subtraction associates to the left. -/
theorem differences_derived :
    .eof ∉ [Token.int "7", .op .minus, .int "2", .op .minus, .int "3"] ∧
    Program.DerivedFrom [.expr (.infixOp .minus (.infixOp .minus (.int 7) (.int 2)) (.int 3))]
      [.int "7", .op .minus, .int "2", .op .minus, .int "3"] :=
  ⟨by decide, ((parseProgram_iff_derives _ (by decide)).1 _).1 (by rfl)⟩

end Monkey
