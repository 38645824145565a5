import Mathlib
import Monkey.Proofs.Conversation
import Monkey.Proofs.OpenBlocks
import Monkey.Proofs.ParserSoundness
import Monkey.Proofs.ScopeGraph
import Monkey.Proofs.Tokenization

/-!
# A session as one program

Lines that end at a semicolon outside of all braces can be joined by line feeds:
no token goes on over a line feed, and parsing begins anew behind the semicolon.
Evaluating the statements of all lines at a stretch then does what evaluating the
lines one after another does, except that function literals stand at other places.
Lines with syntax errors between them leave no trace.
-/

set_option autoImplicit false

namespace Monkey

/-! ### Joining lines -/

theorem Token.absorbs_feed (t : Token) : t.absorbs 10 = false := by
  cases t with
  | op o => cases o <;> rfl
  | _ => rfl

theorem Splits.all_feed {a : Bytes} {ts : List Token} (h : Splits a ts) (b : Bytes) :
    Token.all (a ++ 10 :: b) = ts ++ Token.all b := by
  induction h with
  | done blanks h =>
    rw [Token.all_blanks h, Token.all_blank (by decide)]
    rfl
  | token blanks spelling rest t ts hblanks hspelling hend _ ih =>
    have hfeed : ∀ byte ∈ (rest ++ 10 :: b).head?, t.absorbs byte = false := by
      cases rest with
      | nil =>
        rintro _ ⟨⟩
        exact t.absorbs_feed
      | cons byte rest => exact hend
    rw [List.append_assoc, List.append_assoc, Token.all_blanks hblanks,
      Token.all_spelled hspelling hfeed, ih, List.cons_append]

theorem Token.all_feed (a b : Bytes) : all (a ++ 10 :: b) = all a ++ all b :=
  (all_splits a).all_feed b

/-- The line ends in a semicolon outside of all braces, all of which are closed. -/
def Bytes.Closed (line : Bytes) : Prop :=
  braceDepth 0 (Token.all line) = 0 ∧ (Token.all line).getLast? = some .semicolon

theorem Bytes.Closed.statements_ne_nil {line : Bytes} (h : line.Closed)
    (herrors : line.syntaxErrors = []) : line.statements ≠ [] := by
  intro hnil
  have hderived := derives_of_run (Token.all_splits line).eof_notMem herrors
  have hstatements : (Control.idle.run (Token.all line ++ [.eof])).statements = [] := hnil
  rw [hstatements] at hderived
  have hlast := h.2
  generalize Token.all line = ts at hderived hlast
  cases hderived
  cases hlast

theorem statements_joined {lines : List Bytes} (hne : lines ≠ [])
    (h : ∀ line ∈ lines, line.Closed) :
    Bytes.statements (List.intercalate [10] lines) = lines.flatMap Bytes.statements ∧
    Bytes.syntaxErrors (List.intercalate [10] lines) = lines.flatMap Bytes.syntaxErrors := by
  induction lines with
  | nil => exact absurd rfl hne
  | cons line rest ih =>
    obtain ⟨hline, hrest⟩ := List.forall_mem_cons.1 h
    cases rest with
    | nil => simp [List.intercalate]
    | cons other rest =>
      obtain ⟨hstatements, herrors⟩ := ih (List.cons_ne_nil _ _) hrest
      have hjoined : List.intercalate [10] (line :: other :: rest) =
          line ++ 10 :: List.intercalate [10] (other :: rest) := by simp [List.intercalate]
      have hboth := parse_append_of_idle (Token.all (List.intercalate [10] (other :: rest)))
        (Control.run_boundary hline.1 hline.2)
      rw [← Token.all_feed, ← hjoined] at hboth
      exact ⟨hboth.1.trans (congrArg (line.statements ++ ·) hstatements),
        hboth.2.trans (congrArg (line.syntaxErrors ++ ·) herrors)⟩

/-! ### Evaluating statements at a stretch -/

def Site.behind : Nat → Site → Site
  | 0, site => site
  | count + 1, site => behind count (site.child 1)

section

variable {call : Call} {scope : ScopeId}

theorem Stmt.evalAll_append {s after : Scopes} {site : Site} {ss : List Stmt}
    {before r : Option Value} (h : Stmt.evalAll call site scope ss before s = .done r after)
    (hr : ∀ v, r ≠ some (.returned v)) (rest : List Stmt) :
    Stmt.evalAll call site scope (ss ++ rest) before s =
      Stmt.evalAll call (Site.behind ss.length site) scope rest r after := by
  induction ss generalizing s site before with
  | nil =>
    cases h
    rfl
  | cons stmt ss ih =>
    rw [List.cons_append]
    simp only [Stmt.evalAll, Eval.bind] at h ⊢
    cases hfirst : stmt.eval call (site.child 0) scope s with
    | failed e s' =>
      rw [hfirst] at h
      cases h
    | exhausted =>
      rw [hfirst] at h
      cases h
    | done q s' =>
      rw [hfirst] at h
      match q with
      | some (.returned v) =>
        cases h
        exact absurd rfl (hr v)
      | none => exact ih h
      | some (.function f) => exact ih h
      | some (.error e) => exact ih h
      | some (.int n) => exact ih h
      | some (.bool b) => exact ih h
      | some .null => exact ih h

end

theorem CorrespondingOptions.not_returned {closure : Closure → Closure → Prop}
    {r q : Option Value} (h : CorrespondingOptions closure r q)
    (hr : ∀ v, r ≠ some (.returned v)) : ∀ v, q ≠ some (.returned v) := by
  rintro u rfl
  cases r with
  | none => exact nomatch h.eq_none
  | some v =>
    obtain ⟨_, ⟨⟩, hv⟩ := h.exists_some
    cases hv with
    | returned v u _ => exact hr v rfl

def Renumbering.anywhere : Renumbering where
  number := id
  place := fun _ _ => True
  increasing := id
  child := fun _ _ => trivial

theorem Renumbering.anywhere_fixes (count : Nat) : Renumbering.anywhere.Fixes count :=
  ⟨fun _ _ => rfl, fun _ => trivial⟩

/-! ### Sessions -/

/-- Each of the lines is a program that comes to an end in the session that the one before it
has left, with this value. Neither an error nor a returned value has ended it early. -/
inductive Session.Completes (limit : Nat) (scope : ScopeId) :
    Session → List Bytes → List (Option Value) → Session → Prop where
  | done (session : Session) : Completes limit scope session [] [] session
  | line (line : Bytes) (program : Program) (value : Option Value) (after : Scopes)
      (rest : List Bytes) (values : List (Option Value)) (first last : Session)
      (hprogram : Program.ofBytes line = .ok program)
      (hvalue : Stmt.evalAll (Closure.apply limit) ⟨first.programs, []⟩ scope program none
        first.scopes = .done value after)
      (hreturn : ∀ v, value ≠ some (.returned v))
      (hrest : Completes limit scope ⟨after, first.programs + 1⟩ rest values last) :
      Completes limit scope first (line :: rest) (value :: values) last

def Bytes.accepted (line : Bytes) : Bool := line.syntaxErrors.isEmpty

section

variable {limit : Nat} {scope : ScopeId} {first last : Session} {lines : List Bytes}
  {values : List (Option Value)}

theorem unwrap_of_not_returned {r : Option Value} (h : ∀ v, r ≠ some (.returned v)) :
    r.map Value.unwrap = r := by
  match r with
  | none => rfl
  | some (.returned v) => exact absurd rfl (h v)
  | some (.function f) => rfl
  | some (.error e) => rfl
  | some (.int n) => rfl
  | some (.bool b) => rfl
  | some .null => rfl

theorem Session.evaluate_of_evalAll {session : Session} {program : Program}
    {value : Option Value} {after : Scopes}
    (hvalue : Stmt.evalAll (Closure.apply limit) ⟨session.programs, []⟩ scope program none
      session.scopes = .done value after) (hreturn : ∀ v, value ≠ some (.returned v)) :
    session.evaluate limit program scope =
      some (.finished value, ⟨after, session.programs + 1⟩) := by
  have heval : program.eval limit session.programs scope session.scopes = .done value after := by
    rw [Program.eval, Eval.bind, hvalue]
    exact congrArg (fun r => Outcome.done r after) (unwrap_of_not_returned hreturn)
  rw [Session.evaluate, heval]

namespace Session.Completes

theorem converses (h : first.Completes limit scope lines values last) :
    first.Converses limit scope lines (values.map .finished) last := by
  induction h with
  | done session => exact .done session
  | line line program value after rest values first last hprogram hvalue hreturn _ ih =>
    refine .turn line _ rest _ first _ last ?_ ih
    rw [interpret, hprogram]
    exact Session.evaluate_of_evalAll hvalue hreturn

theorem syntaxErrors (h : first.Completes limit scope lines values last) :
    ∀ line ∈ lines, line.syntaxErrors = [] := by
  induction h with
  | done => exact fun _ h => nomatch h
  | line line program value after rest values first last hprogram _ _ _ ih =>
    exact List.forall_mem_cons.2 ⟨(Program.ofBytes_ok hprogram).2, ih⟩

theorem not_returned (h : first.Completes limit scope lines values last) :
    ∀ value ∈ values, ∀ v, value ≠ some (.returned v) := by
  induction h with
  | done => exact fun _ h => nomatch h
  | line _ _ _ _ _ _ _ _ _ _ hreturn _ ih => exact List.forall_mem_cons.2 ⟨hreturn, ih⟩

theorem length_eq (h : first.Completes limit scope lines values last) :
    values.length = lines.length := by
  have hlength := h.converses.length_eq
  rwa [List.length_map] at hlength

theorem evalAll (h : first.Completes limit scope lines values last)
    (hclosed : ∀ line ∈ lines, line.Closed) (hscope : scope < first.scopes.size) {t : Scopes}
    (ht : first.scopes.Renumbered .anywhere t) (site : Site) {before other : Option Value}
    (hbefore : CorrespondingOptions (Closure.Renumbered .anywhere first.scopes.size) before other) :
    ∃ value after,
      Stmt.evalAll (Closure.apply limit) site scope (lines.flatMap Bytes.statements) other t =
        .done value after ∧
      CorrespondingOptions (Closure.Renumbered .anywhere last.scopes.size)
        (values.getLastD before) value ∧
      last.scopes.Renumbered .anywhere after := by
  induction h generalizing t site before other with
  | done session => exact ⟨other, t, rfl, hbefore, ht⟩
  | line line program value after rest values first last hprogram hvalue hreturn _ ih =>
    obtain ⟨hline, hrest⟩ := List.forall_mem_cons.1 hclosed
    obtain ⟨rfl, herrors⟩ := Program.ofBytes_ok hprogram
    have hrun := Stmt.renumbered_evalAll (Closure.renumbered_apply .anywhere limit)
      line.statements ⟨first.programs, []⟩ site scope none none first.scopes.size hscope trivial
      trivial _ _ _ (Nat.le_refl _) ⟨rfl, ht⟩
    rw [hvalue] at hrun
    generalize hother : Stmt.evalAll (Closure.apply limit) site
      (Renumbering.anywhere.number scope) line.statements none t = outcome at hrun
    cases hrun with
    | done count _ value' _ after' hcount hafter hvalues =>
      obtain ⟨rfl, hafter⟩ := hafter
      have hreturn' : ∀ v, value' ≠ some (.returned v) := hvalues.not_returned hreturn
      have hfirst : Stmt.evalAll (Closure.apply limit) site scope line.statements other t =
          .done value' after' := by
        rw [Stmt.evalAll_before (hline.statements_ne_nil herrors) site other none]
        exact hother
      rw [List.flatMap_cons, Stmt.evalAll_append hfirst hreturn', List.getLastD_cons]
      exact ih hrest (Nat.lt_of_lt_of_le hscope hcount) hafter _ hvalues

end Session.Completes

theorem Session.Converses.interspersed {replies : List Reply} {mixed : List Bytes}
    (h : first.Converses limit scope (mixed.filter Bytes.accepted) replies last) :
    ∃ others, first.Converses limit scope mixed others last ∧
      (mixed.zip others).filter (fun pair => pair.1.accepted) =
        (mixed.filter Bytes.accepted).zip replies := by
  induction mixed generalizing first replies with
  | nil =>
    cases h
    exact ⟨[], .done last, rfl⟩
  | cons line mixed ih =>
    cases hline : line.accepted with
    | true =>
      rw [List.filter_cons_of_pos hline] at h ⊢
      cases h with
      | turn _ reply _ replies _ next _ hreply hrest =>
        obtain ⟨others, hothers, hfilter⟩ := ih hrest
        refine ⟨reply :: others, .turn line reply mixed others first next last hreply hothers, ?_⟩
        simp only [List.zip_cons_cons, List.filter_cons, hline, if_true, hfilter]
    | false =>
      have hrejected : ¬ line.accepted = true := by simp [hline]
      rw [List.filter_cons_of_neg hrejected] at h ⊢
      obtain ⟨others, hothers, hfilter⟩ := ih h
      have hreply : first.interpret limit line scope =
          some (.rejected line.syntaxErrors, first) := by
        have herrors : Program.ofBytes line = .error line.syntaxErrors := by
          rw [Program.ofBytes_eq]
          exact if_neg hrejected
        rw [interpret, herrors]
      refine ⟨.rejected line.syntaxErrors :: others,
        .turn line _ mixed others first first last hreply hothers, ?_⟩
      simp only [List.zip_cons_cons, List.filter_cons, hline, Bool.false_eq_true, if_false,
        hfilter]

end

/-- If lines that end in a semicolon outside of all braces come to an end one after another
in a new session, with no runtime error and no returned value at the top, then joined by line
feeds they are a program without syntax errors. Evaluated in a new session, it comes
to the value of the last line, and leaves scopes that bind what those of the session bind:
the same values, and functions with the same parameters and body that capture the scope of
the same number. If lines with syntax errors are put in between, the other lines get the same
replies and the session is the same in the end. -/
theorem session_as_one_program {limit : Nat} {lines : List Bytes} {values : List (Option Value)}
    {last : Session} (hne : lines ≠ []) (hclosed : ∀ line ∈ lines, line.Closed)
    (hlines : Session.empty.root.2.Completes limit Session.empty.root.1 lines values last) :
    Session.empty.root.2.Converses limit Session.empty.root.1 lines (values.map .finished) last ∧
    (∃ program result value whole,
      Program.ofBytes (List.intercalate [10] lines) = .ok program ∧
      Session.empty.root.2.evaluate limit program Session.empty.root.1 =
        some (.finished value, whole) ∧
      values.getLast? = some result ∧
      CorrespondingOptions (Closure.Renumbered .anywhere last.scopes.size) result value ∧
      (∀ name, CorrespondingOptions (Closure.Renumbered .anywhere last.scopes.size)
        (last.get Session.empty.root.1 name) (whole.get Session.empty.root.1 name)) ∧
      last.scopes.Renumbered .anywhere whole.scopes) ∧
    ∀ mixed : List Bytes, mixed.filter Bytes.accepted = lines →
      ∃ replies, Session.empty.root.2.Converses limit Session.empty.root.1 mixed replies last ∧
        (mixed.zip replies).filter (fun pair => pair.1.accepted) =
          lines.zip (values.map .finished) := by
  have hconverses := hlines.converses
  refine ⟨hconverses, ?_, ?_⟩
  · obtain ⟨hstatements, herrors⟩ := statements_joined hne hclosed
    have hnone : lines.flatMap Bytes.syntaxErrors = [] :=
      List.flatMap_eq_nil_iff.2 hlines.syntaxErrors
    have hprogram : Program.ofBytes (List.intercalate [10] lines) =
        .ok (lines.flatMap Bytes.statements) := by
      rw [Program.ofBytes_eq, herrors, hnone, hstatements]
      rfl
    have hroot : Session.empty.root.2.scopes.Renumbered .anywhere Session.empty.root.2.scopes :=
      Scopes.linked_root.renumbered (fun _ _ => rfl) (Renumbering.anywhere_fixes _) fun _ => rfl
    have hbefore : CorrespondingOptions
        (Closure.Renumbered .anywhere Session.empty.root.2.scopes.size) none none := trivial
    obtain ⟨value, after, hvalue, hresult, hafter⟩ :=
      hlines.evalAll hclosed (by decide) hroot ⟨0, []⟩ hbefore
    have hvalues : values ≠ [] := by
      intro hnil
      have hlength := hlines.length_eq
      rw [hnil] at hlength
      exact hne (List.length_eq_zero_iff.1 hlength.symm)
    rw [List.getLastD_eq_getLast?, List.getLast?_eq_some_getLast hvalues, Option.getD_some]
      at hresult
    have hreturn := hresult.not_returned (hlines.not_returned _ (List.getLast_mem hvalues))
    exact ⟨_, _, value, _, hprogram, Session.evaluate_of_evalAll hvalue hreturn,
      List.getLast?_eq_some_getLast hvalues, hresult, fun name => hafter.get _ name, hafter⟩
  · rintro mixed rfl
    exact hconverses.interspersed

/-- A function that captures the scope of a call, called on the next line, and a line with
a syntax error between the two. -/
theorem closure_across_lines :
    let first : Bytes := Bytes.ofText "let g = fn(x) \x7b fn() \x7b x \x7d \x7d(2);"
    let second : Bytes := Bytes.ofText "g() + 1;"
    let broken : Bytes := Bytes.ofText ")"
    [first, second] ≠ [] ∧ (∀ line ∈ [first, second], line.Closed) ∧
    ∃ last, Session.empty.root.2.Completes 1 Session.empty.root.1 [first, second]
        [none, some (.int 3)] last ∧
      (∃ program whole, Program.ofBytes (List.intercalate [10] [first, second]) = .ok program ∧
        Session.empty.root.2.evaluate 1 program Session.empty.root.1 =
          some (.finished (some (.int 3)), whole) ∧
        last.scopes.Renumbered .anywhere whole.scopes) ∧
      ∃ replies, Session.empty.root.2.Converses 1 Session.empty.root.1
        [first, broken, second] replies last := by
  intro first second broken
  let g : Value := .function ⟨[], [.expr (.ident "x")], 1, ⟨0, [0, 0, 0, 0, 0, 0]⟩⟩
  let called : Scope := ⟨some 0, [("x", .int 2)]⟩
  have hne : [first, second] ≠ [] := List.cons_ne_nil _ _
  have hfirst : first.Closed := by
    simp only [first, Bytes.Closed]
    cbv
  have hsecond : second.Closed := by
    simp only [second, Bytes.Closed]
    cbv
  have hclosed : ∀ line ∈ [first, second], line.Closed :=
    List.forall_mem_cons.2 ⟨hfirst, List.forall_mem_singleton.2 hsecond⟩
  have hlines : Session.empty.root.2.Completes 1 Session.empty.root.1 [first, second]
      [none, some (.int 3)] ⟨#[⟨none, [("g", g)]⟩, called, ⟨some 1, []⟩], 2⟩ := by
    refine .line first [.bind "g" (.call (.fn ["x"] [.expr (.fn [] [.expr (.ident "x")])])
      [.int 2])] none #[⟨none, [("g", g)]⟩, called] _ _ _ _ ?_ ?_ (by simp)
      (.line second [.expr (.infixOp .plus (.call (.ident "g") []) (.int 1))] (some (.int 3))
        _ _ _ _ _ ?_ ?_ (by simp) (.done _))
    all_goals
      simp only [first, second, g, called]
      cbv
  obtain ⟨_, ⟨program, result, value, whole, hprogram, hwhole, hresult, hvalue, _, hscopes⟩,
    hmixed⟩ := session_as_one_program hne hclosed hlines
  obtain rfl : some (.int 3) = result := Option.some.inj hresult
  obtain ⟨_, rfl, hthree⟩ := hvalue.exists_some
  cases hthree
  have haccepted : [first, broken, second].filter Bytes.accepted = [first, second] := by
    simp only [first, second, broken]
    cbv
  obtain ⟨replies, hreplies, _⟩ := hmixed _ haccepted
  exact ⟨hne, hclosed, _, hlines, ⟨program, whole, hprogram, hwhole, hscopes⟩, replies, hreplies⟩

end Monkey
