import Monkey.Parser.Completeness
import Monkey.Proofs.Course
import Monkey.Proofs.ErrorAccount

/-!
# Descent and control

The functions that call one another and the machine with its stack do the same. What
the machine still comes to, from the place where a function begins, it comes to from
the place where the function ends, apart from the errors found on the way. What is
open in the functions at work is on the stack of the machine.
-/

set_option autoImplicit false

namespace Monkey

def Note.parseErrors (notes : List Note) : List ParseError := (Note.errors notes).map Prod.snd

theorem Note.parseErrors_append (notes later : List Note) :
    parseErrors (notes ++ later) = parseErrors notes ++ parseErrors later := by
  simp [parseErrors]

/-- What the machine comes to from the beginning of a reading, it comes to from its end,
apart from the errors in the notes. -/
def Reading.Leads {α : Type} (start : Move) (goal : α → Nat → Move → Prop)
    (broken : Nat → Move → Prop) : Reading α → Prop
  | .done result place notes =>
    ∃ move, goal result place move ∧ start = move.withErrors (Note.parseErrors notes)
  | .broken place notes =>
    ∃ move, broken place move ∧ start = move.withErrors (Note.parseErrors notes)
  | .unfinished => True

section Leads

variable {α β : Type} {start : Move} {goal : α → Nat → Move → Prop} {broken : Nat → Move → Prop}

theorem Reading.Leads.mono {reading : Reading α} {goal' : α → Nat → Move → Prop}
    {broken' : Nat → Move → Prop} (h : reading.Leads start goal broken)
    (hgoal : ∀ result place move, goal result place move → goal' result place move)
    (hbroken : ∀ place move, broken place move → broken' place move) :
    reading.Leads start goal' broken' := by
  cases reading with
  | done result place notes =>
    obtain ⟨move, hmove, hstart⟩ := h
    exact ⟨move, hgoal _ _ _ hmove, hstart⟩
  | broken place notes =>
    obtain ⟨move, hmove, hstart⟩ := h
    exact ⟨move, hbroken _ _ hmove, hstart⟩
  | unfinished => trivial

theorem Reading.Leads.after {reading : Reading α} {move : Move} {notes : List Note}
    (h : reading.Leads move goal broken) :
    (reading.after notes).Leads (move.withErrors (Note.parseErrors notes)) goal broken := by
  cases reading with
  | done result place later =>
    obtain ⟨last, hlast, rfl⟩ := h
    exact ⟨last, hlast, by rw [Note.parseErrors_append, Move.withErrors_append]⟩
  | broken place later =>
    obtain ⟨last, hlast, rfl⟩ := h
    exact ⟨last, hlast, by rw [Note.parseErrors_append, Move.withErrors_append]⟩
  | unfinished => trivial

namespace Descent

theorem either_leads {first : Descent α} {next : α → Descent β} {otherwise : Descent β}
    {place : Nat} {goal' : β → Nat → Move → Prop} {broken' : Nat → Move → Prop}
    (h : (first place).Leads start goal broken)
    (hnext : ∀ result stop move, goal result stop move →
      (next result stop).Leads move goal' broken')
    (hotherwise : ∀ stop move, broken stop move → (otherwise stop).Leads move goal' broken') :
    (first.either next otherwise place).Leads start goal' broken' := by
  unfold either
  cases hfirst : first place with
  | done result stop notes =>
    rw [hfirst] at h
    obtain ⟨move, hmove, rfl⟩ := h
    exact (hnext result stop move hmove).after
  | broken stop notes =>
    rw [hfirst] at h
    obtain ⟨move, hmove, rfl⟩ := h
    exact (hotherwise stop move hmove).after
  | unfinished => trivial

theorem pure_leads {result : α} {place : Nat} (h : goal result place start) :
    (pure result place).Leads start goal broken :=
  ⟨start, h, rfl⟩

theorem broken_leads {place : Nat} (h : broken place start) :
    (Reading.broken place [] : Reading α).Leads start goal broken :=
  ⟨start, h, rfl⟩

theorem bind_leads {first : Descent α} {next : α → Descent β} {place : Nat}
    {goal' : β → Nat → Move → Prop} (h : (first place).Leads start goal broken)
    (hnext : ∀ result stop move, goal result stop move →
      (next result stop).Leads move goal' broken) :
    (first.bind next place).Leads start goal' broken :=
  either_leads h hnext fun _ _ => broken_leads

theorem attempt_leads {goal : Stmt → Nat → Move → Prop} {body : Descent Stmt} {place : Nat}
    (h : (body place).Leads start goal broken) :
    (attempt body place).Leads start goal broken := by
  unfold attempt
  cases hread : body place with
  | done s stop notes =>
    rw [hread] at h
    simpa [Reading.Leads, Note.parseErrors] using h
  | broken stop notes =>
    rw [hread] at h
    simpa [Reading.Leads, Note.parseErrors] using h
  | unfinished => trivial

end Descent

end Leads

namespace Course

variable {stream : TokenStream} (course : Course stream)

/-- The statement that the constructs on the stack belong to has been given up. -/
def GivenUp (stack : Stack) (place : Nat) (move : Move) : Prop :=
  move = course.broken stack.floor place

def Extended (stack : Stack) (e : Expr) (place : Nat) (move : Move) : Prop :=
  stream place ≠ .semicolon ∧
    move = course.run ⟨.operator e (stream.closes place), stack⟩ (place + 1)

def Complete (stack : Stack) (e : Expr) (place : Nat) (move : Move) : Prop :=
  (stream (place + 1)).level ≤ stack.level ∧ course.Extended stack e place move

/-- A part that ends with a closing parenthesis has been read, and the machine goes on like this. -/
def Behind (mode : Mode) (stack : Stack) (place : Nat) (move : Move) : Prop :=
  stream place = .rparen ∧ move = course.run ⟨mode, stack⟩ (place + 1)

def BlockEnd (owner : Owner) (rest : Stack) (ss : Block) (place : Nat) (move : Move) : Prop :=
  stream.closes place = true ∧
    move = course.settled (.block owner ss :: rest) (.broken true) (place + 1)

structure Follows (readers : Descent.Readers) : Prop where
  expression : ∀ (stack : Stack) (place : Nat),
    (readers.expression stack.level place).Leads (course.run ⟨.operand, stack⟩ place)
      (course.Complete stack) (course.GivenUp stack)
  extension : ∀ (stack : Stack) (left : Expr) (place : Nat) (move : Move),
    course.Extended stack left place move →
      (readers.extension stack.level left place).Leads move
        (course.Complete stack) (course.GivenUp stack)
  arguments : ∀ (stack : Stack) (f e : Expr) (before : List Expr) (place : Nat) (move : Move),
    course.Complete (.hole (.argument f before) :: stack) e place move →
      (readers.arguments (before ++ [e]) place).Leads move
        (fun es => course.Behind (.operator (.call f es) false) stack) (course.GivenUp stack)
  parameters : ∀ (stack : Stack) (ps : List String) (place : Nat),
    (stream place).isInner = true →
      (readers.parameters ps place).Leads (course.run ⟨.paramEnd ps, stack⟩ (place + 1))
        (fun ps => course.Behind (.bodyOpen ps) stack) (course.GivenUp stack)
  block : ∀ (owner : Owner) (ss : Block) (rest : Stack) (place : Nat),
    (readers.block ss place).Leads (course.run ⟨.statement, .block owner ss :: rest⟩ place)
      (course.BlockEnd owner rest) fun _ _ => False
  skipping : ∀ (base : Stack) (place : Nat), Stack.base base = true → stream place ≠ .rbrace →
    (readers.skipping place).Leads (course.broken base place)
      (fun _ stop move => move = course.recovered base stop) fun _ _ => False
  program : ∀ (ss : Program) (place : Nat),
    (readers.program ss place).Leads (course.run .idle place)
      (fun result _ move => ∃ more, result = ss ++ more ∧ move = ⟨.idle, more, []⟩)
      fun _ _ => False

section Ends

variable {course}

theorem Complete.fill {hole : Hole} {stack : Stack} {e : Expr} {place : Nat} {move : Move}
    (h : course.Complete (.hole hole :: stack) e place move) :
    move = course.onward (Control.fillHole (stream (place + 1)) hole e (stream.closes place) stack
      (Control.settle (stream (place + 1)) stack)) (place + 1) := by
  obtain ⟨hlevel, _, rfl⟩ := h
  have hfive : hole.level ≤ 5 := by
    cases hole with
    | infixOp o left => exact Control.level_le_five o
    | _ => simp [Hole.level]
  rw [run_operator, settled, Control.settle_hole _ hole hlevel hfive]

theorem inner_goes_on {place : Nat} (h : (stream place).isInner = true) :
    stream place ≠ .semicolon ∧ stream.closes place = false := by
  unfold TokenStream.closes
  cases ht : stream place <;> rw [ht] at h <;> simp_all [Token.isInner]

theorem ne_of_closes {place : Nat} (h : stream.closes place = true) :
    stream place ≠ .semicolon := by
  intro ht
  simp [TokenStream.closes, ht] at h

theorem Behind.extended {e : Expr} {stack : Stack} {place : Nat} {move : Move}
    (h : course.Behind (.operator e false) stack place move) :
    course.Extended stack e place move := by
  obtain ⟨ht, rfl⟩ := h
  have hinner : (stream place).isInner = true := by rw [ht]; rfl
  obtain ⟨hsemicolon, hcloses⟩ := inner_goes_on hinner
  exact ⟨hsemicolon, by rw [hcloses]⟩

theorem BlockEnd.extended {owner : Owner} {stack : Stack} {ss : Block} {place : Nat} {move : Move}
    (h : course.BlockEnd owner stack ss place move) (howner : ∀ c, owner ≠ .consequence c) :
    course.Extended stack (owner.expr ss) place move := by
  obtain ⟨hcloses, rfl⟩ := h
  refine ⟨ne_of_closes hcloses, ?_⟩
  rw [hcloses, run_operator]
  cases owner with
  | consequence c => exact absurd rfl (howner c)
  | alternative c a => rfl
  | body ps => rfl

end Ends

section Parts

open Descent

variable {α : Type} {stack : Stack} {place : Nat}

theorem giveUp_leads (stack : Stack) (goal : α → Nat → Move → Prop)
    (hsemicolon : stream place ≠ .semicolon) (at_ : Nat) (e : ParseError) :
    (Reading.broken place [.error at_ e] : Reading α).Leads
      (course.onward ((Control.settle (stream (place + 1)) stack
        (.broken (stream.closes place))).withError e) (place + 1)) goal (course.GivenUp stack) := by
  refine ⟨_, rfl, ?_⟩
  rw [Move.withError_eq, onward_withErrors, broken, if_neg hsemicolon, ← settled_broken_floor]
  rfl

theorem expect_leads {expected : Token} {control next : Control}
    (hstep : control.step (stream (place + 1)) =
      Control.expect expected (stream (place + 1)) stack next)
    (hinner : (stream place).isInner = true) :
    (expect stream expected place).Leads (course.run control (place + 1))
      (fun _ stop move => stop = place + 1 ∧ stream stop = expected ∧
        move = course.run next (stop + 1)) (course.GivenUp stack) := by
  obtain ⟨hsemicolon, hcloses⟩ := inner_goes_on hinner
  rw [run_eq_onward, hstep]
  unfold expect Control.expect
  split
  · next ht => exact ⟨_, ⟨rfl, ht, rfl⟩, course.onward_quiet _ _⟩
  · rw [Control.missing, ← hcloses]
    exact course.giveUp_leads stack _ hsemicolon _ _

theorem expectName_leads {control : Control} {next : String → Control}
    (hstep : control.step (stream (place + 1)) =
      Control.expectName (stream (place + 1)) stack next)
    (hinner : (stream place).isInner = true) :
    (expectName stream place).Leads (course.run control (place + 1))
      (fun name stop move => stop = place + 1 ∧ stream stop = .ident name ∧
        move = course.run (next name) (stop + 1)) (course.GivenUp stack) := by
  obtain ⟨hsemicolon, hcloses⟩ := inner_goes_on hinner
  rw [run_eq_onward, hstep]
  unfold expectName
  cases ht : stream (place + 1) with
  | ident name => exact ⟨_, ⟨rfl, ht, rfl⟩, course.onward_quiet _ _⟩
  | _ =>
    have hmissing := course.giveUp_leads stack
      (fun name stop move => stop = place + 1 ∧ stream stop = .ident name ∧
        move = course.run (next name) (stop + 1))
      hsemicolon (place + 1) (.unexpected .ident (stream (place + 1)).kind)
    rw [hcloses, ht] at hmissing
    exact hmissing

theorem rparen_leads {mode : Mode} (hsemicolon : stream place ≠ .semicolon) :
    (expect stream .rparen place).Leads
      (course.onward (if stream (place + 1) = .rparen then .quiet ⟨mode, stack⟩
        else Control.fillHole.unclosed (stream (place + 1)) (stream.closes place)
          (Control.settle (stream (place + 1)) stack)) (place + 1))
      (fun _ => course.Behind mode stack) (course.GivenUp stack) := by
  unfold expect
  split
  · next ht => exact ⟨_, ⟨ht, rfl⟩, course.onward_quiet _ _⟩
  · exact course.giveUp_leads stack _ hsemicolon _ _

theorem run_operand_ok (next : Control)
    (h : Control.startExpr (stream place) stack = .ok next) :
    course.run ⟨.operand, stack⟩ place = course.run next (place + 1) := by
  rw [run_eq_onward, Control.step, Control.operand, h]
  exact course.onward_quiet _ _

theorem run_operand_error {e : ParseError}
    (h : Control.startExpr (stream place) stack = .error e) :
    course.run ⟨.operand, stack⟩ place = (course.broken stack.floor place).withErrors [e] := by
  have hfloor : course.settled stack .refused place = course.settled stack.floor .refused place :=
    course.settled_floor stack place fun _ _ => Ended.noConfusion
  rw [run_eq_onward, Control.step, Control.operand, h, ← course.settled_refused (floor_base stack),
    ← hfloor]
  exact course.onward_withErrors [e] _ _

theorem atom_leads (e : Expr) (hinner : (stream place).isInner = true)
    (hstart : Control.startExpr (stream place) stack = .ok ⟨.operator e false, stack⟩) :
    (pure e place).Leads (course.run ⟨.operand, stack⟩ place)
      (course.Extended stack) (course.GivenUp stack) := by
  obtain ⟨hsemicolon, hcloses⟩ := inner_goes_on hinner
  refine pure_leads ⟨hsemicolon, ?_⟩
  rw [course.run_operand_ok _ hstart, hcloses]

variable {readers : Readers} (h : course.Follows readers)

include h

theorem block_leads (owner : Owner) :
    (block readers place).Leads (course.run ⟨.statement, .block owner [] :: stack⟩ (place + 1))
      (course.BlockEnd owner stack) (course.GivenUp stack) := by
  unfold block
  rw [advance_bind]
  exact (h.block owner [] stack (place + 1)).mono (fun _ _ _ => id) fun _ _ => False.elim

theorem operation_leads (o : Operator) :
    (operation readers o place).Leads
      (course.run ⟨.operand, .hole (.prefixOp o) :: stack⟩ (place + 1))
      (course.Extended stack) (course.GivenUp stack) := by
  unfold operation
  rw [advance_bind]
  refine bind_leads (h.expression (.hole (.prefixOp o) :: stack) (place + 1))
    fun e stop move hcomplete => pure_leads ⟨hcomplete.2.1, ?_⟩
  rw [run_operator]
  exact hcomplete.fill

theorem group_leads :
    (group stream readers place).Leads (course.run ⟨.operand, .hole .group :: stack⟩ (place + 1))
      (course.Extended stack) (course.GivenUp stack) := by
  unfold group
  rw [advance_bind]
  refine bind_leads (h.expression (.hole .group :: stack) (place + 1)) fun e _ _ hcomplete => ?_
  obtain rfl := hcomplete.fill
  exact bind_leads (course.rparen_leads hcomplete.2.1) fun _ _ _ hbehind =>
    pure_leads hbehind.extended

theorem alternative_leads {c : Expr} {a : Block} {move : Move}
    (hend : course.BlockEnd (.consequence c) stack a place move) :
    (alternative stream readers c a place).Leads move (course.Extended stack)
      (course.GivenUp stack) := by
  obtain ⟨hcloses, rfl⟩ := hend
  rw [settled, ← step_close]
  unfold alternative
  split
  · next ht =>
    have hstep : Control.step ⟨(Owner.consequence c).close a, stack⟩ (stream (place + 1)) =
        .quiet ⟨.alternativeOpen c a, stack⟩ := by
      rw [ht]
      rfl
    rw [hstep, onward_quiet, advance_bind]
    refine bind_leads (course.expect_leads rfl (by rw [ht]; rfl)) fun _ stop _ hopen => ?_
    obtain ⟨rfl, _, rfl⟩ := hopen
    exact bind_leads (block_leads course h (.alternative c a)) fun b _ _ hblock =>
      pure_leads (hblock.extended (by simp))
  · next ht =>
    refine pure_leads ⟨ne_of_closes hcloses, ?_⟩
    rw [hcloses, run_operator, Owner.close, Control.step, if_neg ht]
    rfl

theorem conditional_leads (hif : stream place = .keyword .cond) :
    (conditional stream readers place).Leads (course.run ⟨.condOpen, stack⟩ (place + 1))
      (course.Extended stack) (course.GivenUp stack) := by
  refine bind_leads (course.expect_leads rfl (by rw [hif]; rfl)) fun _ stop _ hopen => ?_
  obtain ⟨rfl, _, rfl⟩ := hopen
  rw [advance_bind]
  refine bind_leads (h.expression (.hole .condition :: stack) _) fun c stop _ hcomplete => ?_
  obtain rfl := hcomplete.fill
  refine bind_leads (course.rparen_leads hcomplete.2.1) fun _ stop _ hbehind => ?_
  obtain ⟨ht, rfl⟩ := hbehind
  refine bind_leads (course.expect_leads rfl (by rw [ht]; rfl)) fun _ stop _ hbrace => ?_
  obtain ⟨rfl, _, rfl⟩ := hbrace
  exact bind_leads (block_leads course h (.consequence c)) fun a _ _ hend =>
    alternative_leads course h hend

theorem moreParameters_leads (ps : List String) (hinner : (stream place).isInner = true) :
    (moreParameters stream readers ps place).Leads (course.run ⟨.paramEnd ps, stack⟩ (place + 1))
      (fun ps => course.Behind (.bodyOpen ps) stack) (course.GivenUp stack) := by
  unfold moreParameters
  split
  · next ht =>
    have hstep : Control.step ⟨.paramEnd ps, stack⟩ (stream (place + 1)) =
        .quiet ⟨.param ps, stack⟩ := by
      rw [ht]
      rfl
    rw [run_eq_onward, hstep, onward_quiet, advance_bind]
    refine bind_leads (course.expectName_leads rfl (by rw [ht]; rfl)) fun name stop _ hname => ?_
    obtain ⟨rfl, hident, rfl⟩ := hname
    exact h.parameters stack _ _ (by rw [hident]; rfl)
  · next ht =>
    have hstep : Control.step ⟨.paramEnd ps, stack⟩ (stream (place + 1)) =
        Control.expect .rparen (stream (place + 1)) stack ⟨.bodyOpen ps, stack⟩ := by
      rw [Control.step, if_neg ht]
    refine bind_leads (course.expect_leads hstep hinner) fun _ stop _ hclose => ?_
    obtain ⟨_, hclose⟩ := hclose
    exact pure_leads hclose

theorem parameters_leads (hopen : stream place = .lparen) :
    (parameters stream readers place).Leads (course.run ⟨.firstParam, stack⟩ (place + 1))
      (fun ps => course.Behind (.bodyOpen ps) stack) (course.GivenUp stack) := by
  unfold parameters
  split
  · next ht =>
    refine ⟨_, ⟨ht, rfl⟩, ?_⟩
    rw [run_eq_onward, Control.step, if_pos ht]
    exact course.onward_quiet _ _
  · next ht =>
    have hstep : Control.step ⟨.firstParam, stack⟩ (stream (place + 1)) =
        Control.expectName (stream (place + 1)) stack fun name => ⟨.paramEnd [name], stack⟩ := by
      rw [Control.step, if_neg ht]
    refine bind_leads (course.expectName_leads hstep (by rw [hopen]; rfl)) fun _ _ _ hname => ?_
    obtain ⟨rfl, hident, rfl⟩ := hname
    exact h.parameters stack _ _ (by rw [hident]; rfl)

theorem literal_leads (hfn : stream place = .keyword .fn) :
    (literal stream readers place).Leads (course.run ⟨.fnOpen, stack⟩ (place + 1))
      (course.Extended stack) (course.GivenUp stack) := by
  refine bind_leads (course.expect_leads rfl (by rw [hfn]; rfl)) fun _ stop _ hopen => ?_
  obtain ⟨rfl, hopen, rfl⟩ := hopen
  refine bind_leads (parameters_leads course h hopen) fun ps stop _ hbehind => ?_
  obtain ⟨ht, rfl⟩ := hbehind
  refine bind_leads (course.expect_leads rfl (by rw [ht]; rfl)) fun _ stop _ hbrace => ?_
  obtain ⟨rfl, _, rfl⟩ := hbrace
  exact bind_leads (block_leads course h (.body ps)) fun body _ _ hend =>
    pure_leads (hend.extended (by simp))

theorem operand_leads :
    (operand stream readers place).Leads (course.run ⟨.operand, stack⟩ place)
      (course.Extended stack) (course.GivenUp stack) := by
  have hrefuse : ∀ e : ParseError, Control.startExpr (stream place) stack = .error e →
      (refuse e place : Reading Expr).Leads (course.run ⟨.operand, stack⟩ place)
        (course.Extended stack) (course.GivenUp stack) :=
    fun e hstart => ⟨_, rfl, course.run_operand_error hstart⟩
  unfold operand
  split
  case h_1 name ht => exact course.atom_leads _ (by rw [ht]; rfl) (by rw [ht]; rfl)
  case h_2 digits ht =>
    split
    · next value hvalue =>
      refine course.atom_leads _ (by rw [ht]; rfl) ?_
      simp only [ht, Control.startExpr, hvalue]
    · next hvalue =>
      refine hrefuse _ ?_
      simp only [ht, Control.startExpr, hvalue]
  case h_3 value ht => exact course.atom_leads _ (by rw [ht]; rfl) (by rw [ht]; rfl)
  case h_4 ht =>
    rw [course.run_operand_ok ⟨.operand, .hole (.prefixOp .not) :: stack⟩ (by rw [ht]; rfl)]
    exact operation_leads course h .not
  case h_5 ht =>
    rw [course.run_operand_ok ⟨.operand, .hole (.prefixOp .minus) :: stack⟩ (by rw [ht]; rfl)]
    exact operation_leads course h .minus
  case h_6 ht =>
    rw [course.run_operand_ok ⟨.operand, .hole .group :: stack⟩ (by rw [ht]; rfl)]
    exact group_leads course h
  case h_7 ht =>
    rw [course.run_operand_ok ⟨.condOpen, stack⟩ (by rw [ht]; rfl)]
    exact conditional_leads course h ht
  case h_8 ht =>
    rw [course.run_operand_ok ⟨.fnOpen, stack⟩ (by rw [ht]; rfl)]
    exact literal_leads course h ht
  case h_9 =>
    refine hrefuse _ ?_
    unfold Control.startExpr
    split <;> first | rfl | (exfalso; simp_all)

theorem moreArguments_leads {f e : Expr} {before : List Expr} {move : Move}
    (hcomplete : course.Complete (.hole (.argument f before) :: stack) e place move) :
    (moreArguments stream readers (before ++ [e]) place).Leads move
      (fun es => course.Behind (.operator (.call f es) false) stack) (course.GivenUp stack) := by
  have hsemicolon := hcomplete.2.1
  obtain rfl := hcomplete.fill
  unfold moreArguments
  split
  · next ht =>
    rw [Control.fillHole, if_pos ht, onward_quiet, advance_bind, advance_bind]
    exact bind_leads (h.expression (.hole (.argument f (before ++ [e])) :: stack) _)
      fun e stop _ hnext => h.arguments stack f e _ stop _ hnext
  · next ht =>
    rw [Control.fillHole, if_neg ht]
    exact bind_leads (course.rparen_leads hsemicolon) fun _ _ _ hbehind => pure_leads hbehind

theorem arguments_leads (f : Expr) :
    (arguments stream readers place).Leads (course.run ⟨.arguments f, stack⟩ (place + 1))
      (fun es => course.Behind (.operator (.call f es) false) stack) (course.GivenUp stack) := by
  unfold arguments
  split
  · next ht =>
    refine ⟨_, ⟨ht, rfl⟩, ?_⟩
    rw [run_eq_onward, Control.step, if_pos ht]
    exact course.onward_quiet _ _
  · next ht =>
    have hstart : course.run ⟨.arguments f, stack⟩ (place + 1) =
        course.run ⟨.operand, .hole (.argument f []) :: stack⟩ (place + 1) := by
      rw [run_eq_onward, Control.step, if_neg ht, run_eq_onward]
      rfl
    rw [hstart, advance_bind]
    exact bind_leads (h.expression (.hole (.argument f []) :: stack) _)
      fun e stop _ hnext => h.arguments stack f e [] stop _ hnext

theorem extended_leads (left : Expr) (braced : Bool)
    (hlevel : stack.level < (stream place).level) :
    (extended stream readers left place).Leads (course.run ⟨.operator left braced, stack⟩ place)
      (course.Extended stack) (course.GivenUp stack) := by
  rw [run_operator, settled]
  unfold extended
  split
  · next o ht =>
    rw [ht] at hlevel ⊢
    rw [Control.settle_op hlevel, onward_quiet, advance_bind]
    refine bind_leads (h.expression (.hole (.infixOp o left) :: stack) _)
      fun right stop move hcomplete => pure_leads ⟨hcomplete.2.1, ?_⟩
    rw [run_operator]
    exact hcomplete.fill
  · next hop =>
    have ht : stream place = .lparen := by
      cases ht : stream place <;> rw [ht] at hlevel <;> simp_all [Token.level]
    rw [ht, Control.settle_lparen, onward_quiet]
    exact bind_leads (arguments_leads course h left) fun _ _ _ hbehind =>
      pure_leads hbehind.extended

theorem extension_leads {left : Expr} {move : Move}
    (hextended : course.Extended stack left place move) :
    (extension stream readers stack.level left place).Leads move
      (course.Complete stack) (course.GivenUp stack) := by
  unfold extension
  split
  · next hlevel =>
    obtain ⟨_, rfl⟩ := hextended
    rw [advance_bind]
    exact bind_leads (extended_leads course h left _ hlevel) fun e stop _ hnext =>
      h.extension stack e stop _ hnext
  · next hlevel => exact pure_leads ⟨Nat.le_of_not_lt hlevel, hextended⟩

theorem expression_leads (stack : Stack) :
    (expression stream readers stack.level place).Leads (course.run ⟨.operand, stack⟩ place)
      (course.Complete stack) (course.GivenUp stack) :=
  bind_leads (operand_leads course h) fun left stop _ hextended =>
    h.extension stack left stop _ hextended

end Parts

def behindStmt (base : Stack) (s : Stmt) (place : Nat) : Move :=
  match base with
  | .block owner ss :: rest => course.run ⟨.statement, .block owner (ss ++ [s]) :: rest⟩ (place + 1)
  | _ => (course.run .idle (place + 1)).withStatement s

section Statements

open Descent

variable {base : Stack} (hbase : Stack.base base = true) {place : Nat} {readers : Readers}

include hbase

theorem settled_stmt (s : Stmt) :
    course.settled base (.stmt s) (place + 1) = course.behindStmt base s
      (if stream (place + 1) = .semicolon then place + 1 else place) := by
  unfold settled
  match base, hbase with
  | [], _ =>
    rw [Control.settle, Control.atTop, Control.atTop.afterStmt]
    split
    · simp [behindStmt, onward, Move.followedBy, Move.withStatement]
    · rw [onward_withStatement]
      simp only [behindStmt]
      rw [run_eq_onward]
      rfl
  | .block owner ss :: rest, _ =>
    rw [Control.settle, Control.atBlock, Control.atBlock.afterStmt]
    split
    · exact course.onward_quiet _ _
    · simp only [behindStmt]
      rw [run_eq_onward]
      rfl

theorem semicolon_leads {s : Stmt} {broken : Nat → Move → Prop} :
    ((semicolon stream).bind (fun _ => pure s) place).Leads
      (course.settled base (.stmt s) (place + 1))
      (fun s stop move => move = course.behindStmt base s stop) broken := by
  have hsemicolon : (semicolon stream place).Leads (course.settled base (.stmt s) (place + 1))
      (fun _ stop move => move = course.behindStmt base s stop) broken := by
    rw [course.settled_stmt hbase]
    unfold semicolon
    split <;> exact ⟨_, rfl, rfl⟩
  exact bind_leads hsemicolon fun _ _ _ hbehind => pure_leads hbehind

variable (h : course.Follows readers)

include h

theorem binding_leads (hlet : stream place = .keyword .bind) :
    (binding stream readers place).Leads (course.run ⟨.bindName, base⟩ (place + 1))
      (fun s stop move => move = course.behindStmt base s stop) (course.GivenUp base) := by
  refine bind_leads (course.expectName_leads rfl (by rw [hlet]; rfl)) fun name stop _ hname => ?_
  obtain ⟨rfl, hname, rfl⟩ := hname
  refine bind_leads (course.expect_leads rfl (by rw [hname]; rfl)) fun _ stop _ hassign => ?_
  obtain ⟨rfl, _, rfl⟩ := hassign
  rw [advance_bind]
  refine bind_leads (h.expression (.hole (.bind name) :: base) _) fun e stop _ hcomplete => ?_
  obtain rfl := hcomplete.fill
  exact course.semicolon_leads hbase

theorem returning_leads :
    (returning stream readers place).Leads (course.run ⟨.returned, base⟩ (place + 1))
      (fun s stop move => move = course.behindStmt base s stop) (course.GivenUp base) := by
  have hend : (stream (place + 1) = .semicolon ∨ stream (place + 1) = .rbrace ∨
      stream (place + 1) = .eof) → course.run ⟨.returned, base⟩ (place + 1) =
        course.settled base (.stmt (.ret none)) (place + 1) := by
    intro ht
    rw [run_eq_onward, Control.step, if_pos ht]
    rfl
  unfold returning
  split
  · next ht =>
    rw [hend (.inl ht), course.settled_stmt hbase, if_pos ht]
    exact ⟨_, rfl, rfl⟩
  · next hsemicolon =>
    split
    · next ht =>
      rw [hend (.inr ht), course.settled_stmt hbase, if_neg hsemicolon]
      exact ⟨_, rfl, rfl⟩
    · next hopen =>
      have hstart : course.run ⟨.returned, base⟩ (place + 1) =
          course.run ⟨.operand, .hole .ret :: base⟩ (place + 1) := by
        rw [run_eq_onward, Control.step,
          if_neg (fun ht => ht.elim hsemicolon hopen), run_eq_onward]
        rfl
      rw [hstart, advance_bind]
      refine bind_leads (h.expression (.hole .ret :: base) _) fun e stop _ hcomplete => ?_
      obtain rfl := hcomplete.fill
      exact course.semicolon_leads hbase

theorem simple_leads :
    (simple stream readers place).Leads (course.run ⟨.operand, base⟩ place)
      (fun s stop move => move = course.behindStmt base s stop) (course.GivenUp base) := by
  have hlevel : base.level = 0 := by
    match base, hbase with
    | [], _ => rfl
    | .block owner ss :: rest, _ => rfl
  have hexpression := h.expression base place
  rw [hlevel] at hexpression
  refine bind_leads hexpression fun e stop _ hcomplete => ?_
  obtain ⟨hnext, _, rfl⟩ := hcomplete
  rw [run_operator, settled, Control.settle_expr_stmt hbase (hlevel ▸ hnext)]
  exact course.semicolon_leads hbase

omit hbase h in
theorem run_begin (heof : stream place ≠ .eof) (hbrace : stream place = .rbrace → base = [])
    (hbase : Stack.base base = true) :
    course.run ⟨.statement, base⟩ place =
      course.onward (Control.startStmt (stream place) base) place := by
  rw [run_eq_onward, Control.step]
  congr 1
  cases base with
  | nil => simp [Control.settle, Control.atTop, Control.atTop.between, heof]
  | cons frame rest =>
    cases frame with
    | block owner ss => exact Control.settle_nothing rfl (by simpa using hbrace) heof
    | _ => cases hbase

omit h in
theorem startStmt_operand {t : Token} (hbrace : t = .rbrace → base = []) (heof : t ≠ .eof)
    (hbind : t ≠ .keyword .bind) (hret : t ≠ .keyword .ret) :
    Control.startStmt t base = Control.operand t base := by
  have hskip : Control.settle t base .refused =
      .quiet ⟨if t = .semicolon ∨ t = .rbrace then .statement else .skip, base⟩ := by
    match base, hbase with
    | [], _ =>
      simp only [Control.settle, Control.atTop, Control.atTop.skipped]
      by_cases h : t = .rbrace <;> by_cases h' : t = .semicolon <;> simp_all [Control.idle]
    | .block owner ss :: rest, _ =>
      have hbrace : t ≠ .rbrace := by simpa using hbrace
      simp only [Control.settle, Control.atBlock, Control.atBlock.skipped]
      by_cases h' : t = .semicolon <;> simp_all
  unfold Control.startStmt Control.operand
  split
  · exact absurd rfl hbind
  · exact absurd rfl hret
  · split
    · rfl
    · rw [hskip]
      split <;> rfl

theorem statement_leads (heof : stream place ≠ .eof) (hbrace : stream place = .rbrace → base = []) :
    (statement stream readers place).Leads (course.run ⟨.statement, base⟩ place)
      (fun s stop move => move = course.behindStmt base s stop) (course.GivenUp base) := by
  apply attempt_leads
  rw [course.run_begin heof hbrace hbase]
  split
  · next ht =>
    rw [ht]
    exact (course.onward_quiet _ place).symm ▸ binding_leads course hbase h ht
  · next ht =>
    rw [ht]
    exact (course.onward_quiet _ place).symm ▸ returning_leads course hbase h
  · next hbind hret =>
    rw [startStmt_operand hbase hbrace heof hbind hret]
    exact (course.run_eq_onward ⟨.operand, base⟩ place) ▸ simple_leads course hbase h

end Statements

section Sequences

open Descent

variable {place : Nat} {readers : Readers} (h : course.Follows readers)

include h

theorem skipping_leads {base : Stack} (hbase : Stack.base base = true)
    (hbrace : stream place ≠ .rbrace) :
    (skipping stream readers place).Leads (course.broken base place)
      (fun _ stop move => move = course.recovered base stop) fun _ _ => False := by
  unfold skipping
  split
  · next hstop => exact pure_leads (course.broken_recovered hbase hstop hbrace)
  · next hopen =>
    obtain ⟨hsemicolon, hrest⟩ := not_or.1 hopen
    obtain ⟨heof, hnext⟩ := not_or.1 hrest
    rw [course.broken_succ hbase hsemicolon (by simp [TokenStream.closes, hbrace, heof]) hnext,
      advance_bind]
    exact h.skipping base (place + 1) hbase hnext

theorem synchronize_leads {base : Stack} (hbase : Stack.base base = true) :
    (synchronize stream readers place).Leads (course.broken base place)
      (fun _ stop move => move = course.recovered base stop) fun _ _ => False := by
  unfold synchronize
  split
  · next hbrace => exact pure_leads (course.broken_rbrace hbrace)
  · next hbrace => exact h.skipping base place hbase hbrace

theorem resumed_leads (owner : Owner) (ss : Block) (rest : Stack) :
    (resumed stream readers ss place).Leads (course.recovered (.block owner ss :: rest) place)
      (course.BlockEnd owner rest) fun _ _ => False := by
  unfold resumed recovered
  split
  · next hbrace =>
    exact pure_leads ⟨by simp [TokenStream.closes, hbrace], rfl⟩
  · rw [advance_bind, ← run_statement]
    exact h.block owner ss rest (place + 1)

theorem moreStatements_leads (owner : Owner) (ss : Block) (rest : Stack) :
    (moreStatements stream readers ss place).Leads
      (course.run ⟨.statement, .block owner ss :: rest⟩ place)
      (course.BlockEnd owner rest) fun _ _ => False := by
  have hbase : Stack.base (.block owner ss :: rest) = true := rfl
  unfold moreStatements
  split
  · next hend =>
    refine pure_leads ⟨by simpa [TokenStream.closes] using hend, ?_⟩
    rw [run_statement]
    rcases hend with hbrace | heof
    · rw [settled, hbrace]
      refine (course.onward_quiet _ _).trans ?_
      rw [run_eq_onward, step_close]
      rfl
    · exact course.settled_eof_eq hbase (.inl rfl) heof
  · next hopen =>
    obtain ⟨hbrace, heof⟩ := not_or.1 hopen
    refine either_leads
      (statement_leads course hbase h heof (fun ht => absurd ht hbrace)) (fun s stop _ hs => ?_)
      fun stop _ hbroken => ?_
    · rw [hs, advance_bind]
      exact h.block owner (ss ++ [s]) rest (stop + 1)
    · rw [hbroken]
      refine bind_leads (synchronize_leads course h hbase) fun _ stop _ hrecovered => ?_
      rw [hrecovered]
      exact resumed_leads course h owner ss rest

theorem topStatements_leads (ss : Program) :
    (topStatements stream readers ss place).Leads (course.run .idle place)
      (fun result _ move => ∃ more, result = ss ++ more ∧ move = ⟨.idle, more, []⟩)
      fun _ _ => False := by
  unfold topStatements
  split
  · next heof =>
    exact pure_leads ⟨[], (List.append_nil ss).symm, course.idle_eof place heof⟩
  · next heof =>
    have hstatement : (statement stream readers place).Leads (course.run .idle place)
        (fun s stop move => move = course.behindStmt [] s stop) (course.GivenUp []) :=
      statement_leads course rfl h heof fun _ => rfl
    refine either_leads hstatement (fun s stop _ hs => ?_) fun stop _ hbroken => ?_
    · rw [hs, advance_bind]
      have hprogram := h.program (ss ++ [s]) (stop + 1)
      cases hread : readers.program (ss ++ [s]) (stop + 1) with
      | done result last notes =>
        rw [hread] at hprogram
        obtain ⟨_, ⟨more, rfl, rfl⟩, hrun⟩ := hprogram
        refine ⟨⟨.idle, s :: more, []⟩, ⟨s :: more, by simp, rfl⟩, ?_⟩
        simp only [behindStmt, hrun]
        rfl
      | broken last notes =>
        rw [hread] at hprogram
        obtain ⟨_, hfalse, _⟩ := hprogram
        exact hfalse.elim
      | unfinished => trivial
    · rw [hbroken]
      refine bind_leads (synchronize_leads course h rfl) fun _ stop _ hrecovered => ?_
      have hidle : course.recovered [] stop = course.run .idle (stop + 1) := by
        rw [run_eq_onward]
        unfold recovered
        split <;> rfl
      rw [hrecovered, show Stack.floor [] = [] from rfl, hidle, advance_bind]
      exact h.program ss (stop + 1)

theorem around_follows : course.Follows (Readers.around stream readers) where
  expression stack _ := expression_leads course h stack
  extension _ _ _ _ hextended := extension_leads course h hextended
  arguments _ _ _ _ _ _ hcomplete := moreArguments_leads course h hcomplete
  parameters _ ps _ hinner := moreParameters_leads course h ps hinner
  block owner ss rest _ := moreStatements_leads course h owner ss rest
  skipping _ _ hbase hbrace := skipping_leads course h hbase hbrace
  program ss _ := topStatements_leads course h ss

end Sequences

theorem readers_follow (limit : Nat) : course.Follows (Descent.readers stream limit) := by
  induction limit with
  | zero => constructor <;> intros <;> trivial
  | succ limit ih => exact around_follows course ih

/-- A program that has been read is what the machine completes, and has its errors. -/
theorem read_eq {limit place stop : Nat} {program : Program} {notes : List Note}
    (h : stream.read limit place = .done program stop notes) :
    course.run .idle place = ⟨.idle, program, Note.parseErrors notes⟩ := by
  have hprogram := (course.readers_follow limit).program [] place
  rw [show (Descent.readers stream limit).program [] place = _ from h] at hprogram
  obtain ⟨_, ⟨more, rfl, rfl⟩, hrun⟩ := hprogram
  rw [hrun]
  simp [Move.withErrors]

end Course

end Monkey
