import Monkey.Parser.Descent
import Monkey.Parser.Lemmas

/-!
# The course of the machine

The machine that is fed one token at a time, seen from the places of the tokens: what
it comes to from a place on, to the end of input. At the end of input it makes no
difference how often that is fed. Of interest is what the machine comes to when a
statement is given up, and that skipping tokens does not change it.
-/

set_option autoImplicit false

namespace Monkey

def Stack.floor : Stack → Stack
  | .hole _ :: rest => Stack.floor rest
  | stack => stack

def Move.withErrors (errors : List ParseError) (move : Move) : Move :=
  ⟨move.control, move.statements, errors ++ move.errors⟩

theorem Move.withErrors_append (errors later : List ParseError) (move : Move) :
    move.withErrors (errors ++ later) = (move.withErrors later).withErrors errors := by
  simp [Move.withErrors]

theorem Move.withError_eq (error : ParseError) (move : Move) :
    move.withError error = move.withErrors [error] :=
  rfl

def TokenStream.closes (stream : TokenStream) (place : Nat) : Bool :=
  stream place == .rbrace || stream place == .eof

/-- What the machine comes to when it is fed the tokens from a place on, to the end of input. -/
structure Course (stream : TokenStream) where
  run : Control → Nat → Move
  step (control : Control) (place : Nat) : run control place =
    (control.step (stream place)).followedBy
      (run (control.step (stream place)).control (place + 1))
  idle_eof (place : Nat) (h : stream place = .eof) : run .idle place = .quiet .idle
  eof_succ (place : Nat) (h : stream place = .eof) : stream (place + 1) = .eof

namespace Course

variable {stream : TokenStream} (course : Course stream)

def onward (move : Move) (place : Nat) : Move :=
  move.followedBy (course.run move.control (place + 1))

/-- What the machine comes to when something on the stack has come to an end in front of a place. -/
def settled (stack : Stack) (ended : Ended) (place : Nat) : Move :=
  course.onward (Control.settle (stream place) stack ended) place

/-- What the machine comes to if a statement is given up at a place. -/
def broken (base : Stack) (place : Nat) : Move :=
  if stream place = .semicolon then course.run ⟨.statement, base⟩ (place + 1)
  else course.settled base (.broken (stream.closes place)) (place + 1)

def recovered (base : Stack) (place : Nat) : Move :=
  course.settled base (if stream place = .rbrace then .broken true else .nothing) (place + 1)

theorem run_eq_onward (control : Control) (place : Nat) :
    course.run control place = course.onward (control.step (stream place)) place :=
  course.step control place

@[simp] theorem onward_quiet (control : Control) (place : Nat) :
    course.onward (.quiet control) place = course.run control (place + 1) := by
  simp [onward, Move.followedBy, Move.quiet]

@[simp] theorem onward_withErrors (errors : List ParseError) (move : Move) (place : Nat) :
    course.onward (move.withErrors errors) place =
      (course.onward move place).withErrors errors := by
  simp [onward, Move.followedBy, Move.withErrors]

@[simp] theorem onward_withStatement (s : Stmt) (move : Move) (place : Nat) :
    course.onward (move.withStatement s) place = (course.onward move place).withStatement s := by
  simp [onward, Move.followedBy, Move.withStatement]

theorem onward_eof {place : Nat} (h : stream place = .eof) {move : Move}
    (hidle : move.control = .idle) : course.onward move place = move := by
  rw [onward, hidle, course.idle_eof _ (course.eof_succ _ h), ← hidle]
  exact Control.followedBy_quiet move

theorem settled_eof {place : Nat} (h : stream place = .eof) (stack : Stack) (ended : Ended) :
    course.settled stack ended place = Control.settle .eof stack ended := by
  rw [settled, h]
  exact course.onward_eof h (Control.settle_eof stack ended)

theorem run_statement (stack : Stack) (place : Nat) :
    course.run ⟨.statement, stack⟩ place = course.settled stack .nothing place :=
  course.run_eq_onward _ _

theorem run_operator (e : Expr) (braced : Bool) (stack : Stack) (place : Nat) :
    course.run ⟨.operator e braced, stack⟩ place = course.settled stack (.expr e braced) place :=
  course.run_eq_onward _ _

theorem floor_base (stack : Stack) : Stack.base stack.floor = true := by
  induction stack with
  | nil => rfl
  | cons frame rest ih =>
    cases frame with
    | block owner ss => rfl
    | hole hole => exact ih

theorem settled_floor (stack : Stack) {ended : Ended} (place : Nat)
    (h : ∀ e braced, ended ≠ .expr e braced) :
    course.settled stack ended place = course.settled stack.floor ended place := by
  induction stack with
  | nil => rfl
  | cons frame rest ih =>
    cases frame with
    | block owner ss => rfl
    | hole hole =>
      rw [settled, Control.settle.eq_def]
      cases ended with
      | expr e braced => exact absurd rfl (h e braced)
      | _ => exact ih

theorem settled_broken_floor (stack : Stack) (braced : Bool) (place : Nat) :
    course.settled stack (.broken braced) place =
      course.settled stack.floor (.broken braced) place :=
  course.settled_floor stack place fun _ _ => Ended.noConfusion

theorem step_close (owner : Owner) (ss : Block) (rest : Stack) (t : Token) :
    Control.step ⟨owner.close ss, rest⟩ t =
      Control.settle t (.block owner ss :: rest) (.broken true) := by
  cases owner <;> cases t using Token.casesOn <;>
    first | rfl | (rename_i word; cases word <;> rfl)

section Recovery

variable {base : Stack} (hbase : Stack.base base = true) {place : Nat}

theorem broken_rbrace (hbrace : stream place = .rbrace) :
    course.broken base place = course.recovered base place := by
  unfold broken recovered
  rw [if_pos hbrace, if_neg (by simp [hbrace])]
  simp [TokenStream.closes, hbrace]

include hbase

theorem settled_eof_eq {ended : Ended} (hended : ended = .nothing ∨ ended = .refused)
    (h : stream place = .eof) :
    course.settled base ended place = course.settled base (.broken true) (place + 1) := by
  rw [settled_eof course h, settled_eof course (course.eof_succ place h)]
  match base, hbase with
  | [], _ => rcases hended with rfl | rfl <;> rfl
  | .block owner ss :: rest, _ => rcases hended with rfl | rfl <;> cases owner <;> rfl

theorem settled_refused : course.settled base .refused place = course.broken base place := by
  unfold broken
  split
  · next ht =>
    rw [settled, ht]
    match base, hbase with
    | [], _ => exact course.onward_quiet _ _
    | .block owner ss :: rest, _ => exact course.onward_quiet _ _
  · next hsemicolon =>
    by_cases hbrace : stream place = .rbrace
    · have hcloses : stream.closes place = true := by simp [TokenStream.closes, hbrace]
      rw [hcloses, settled, hbrace]
      match base, hbase with
      | [], _ => exact (course.onward_quiet _ _).trans (course.run_statement [] _)
      | .block owner ss :: rest, _ =>
        refine (course.onward_quiet _ _).trans ?_
        rw [run_eq_onward, step_close]
        rfl
    · by_cases heof : stream place = .eof
      · have hcloses : stream.closes place = true := by simp [TokenStream.closes, heof]
        rw [hcloses]
        exact course.settled_eof_eq hbase (.inr rfl) heof
      · have hcloses : stream.closes place = false := by simp [TokenStream.closes, heof, hbrace]
        have hskip : Control.settle (stream place) base .refused = .quiet ⟨.skip, base⟩ := by
          match base, hbase with
          | [], _ =>
            simp [Control.settle, Control.atTop, Control.atTop.skipped, hsemicolon, hbrace, heof]
          | .block owner ss :: rest, _ =>
            simp [Control.settle, Control.atBlock, Control.atBlock.skipped, hsemicolon, hbrace,
              heof]
        rw [hcloses, settled, hskip, onward_quiet, run_eq_onward]
        rfl

theorem broken_succ (hsemicolon : stream place ≠ .semicolon) (hcloses : stream.closes place = false)
    (hbrace : stream (place + 1) ≠ .rbrace) :
    course.broken base place = course.broken base (place + 1) := by
  have hnext : course.settled base .refused (place + 1) = course.broken base (place + 1) :=
    course.settled_refused hbase
  rw [← hnext, broken, if_neg hsemicolon, hcloses]
  unfold settled
  congr 1
  match base, hbase with
  | [], _ => simp [Control.settle, Control.atTop, hbrace]
  | .block owner ss :: rest, _ => rfl

theorem broken_recovered
    (h : stream place = .semicolon ∨ stream place = .eof ∨ stream (place + 1) = .rbrace)
    (hbrace : stream place ≠ .rbrace) :
    course.broken base place = course.recovered base place := by
  unfold broken recovered
  rw [if_neg hbrace]
  by_cases hsemicolon : stream place = .semicolon
  · rw [if_pos hsemicolon, run_statement]
  · rw [if_neg hsemicolon]
    by_cases heof : stream place = .eof
    · have hcloses : stream.closes place = true := by simp [TokenStream.closes, heof]
      have hnext := course.eof_succ place heof
      rw [hcloses, course.settled_eof_eq hbase (.inl rfl) hnext,
        settled_eof course hnext, settled_eof course (course.eof_succ _ hnext)]
    · have hnext : stream (place + 1) = .rbrace := by
        rcases h with h | h | h
        · exact absurd h hsemicolon
        · exact absurd h heof
        · exact h
      have hcloses : stream.closes place = false := by simp [TokenStream.closes, heof, hbrace]
      rw [hcloses, settled, settled, hnext]
      match base, hbase with
      | [], _ => rfl
      | .block owner ss :: rest, _ => rfl

end Recovery

end Course

theorem TokenStream.ofList_of_lt {ts : List Token} {place : Nat} (h : place < ts.length) :
    TokenStream.ofList ts place = ts[place] := by
  simp [TokenStream.ofList, List.getD, List.getElem?_eq_getElem h]

theorem TokenStream.ofList_of_le {ts : List Token} {place : Nat} (h : ts.length ≤ place) :
    TokenStream.ofList ts place = .eof := by
  simp [TokenStream.ofList, List.getD, List.getElem?_eq_none h]

theorem TokenStream.le_of_ofList_eof {ts : List Token} (hts : Token.eof ∉ ts) {place : Nat}
    (h : TokenStream.ofList ts place = .eof) : ts.length ≤ place := by
  refine Nat.le_of_not_lt fun hlt => hts ?_
  rw [← h, TokenStream.ofList_of_lt hlt]
  exact List.getElem_mem hlt

def Course.ofList (ts : List Token) (hts : Token.eof ∉ ts) : Course (.ofList ts) where
  run control place := control.run (ts.drop place ++ [.eof])
  step control place := by
    by_cases hplace : place < ts.length
    · rw [TokenStream.ofList_of_lt hplace, List.drop_eq_getElem_cons hplace]
      rfl
    · have hle := Nat.le_of_not_lt hplace
      rw [TokenStream.ofList_of_le hle, List.drop_eq_nil_of_le hle,
        List.drop_eq_nil_of_le (Nat.le_succ_of_le hle), Control.step_eof]
      simp only [List.nil_append, Control.run_single]
      have hlast := Control.followedBy_quiet (control.step .eof)
      rw [Control.step_eof] at hlast
      exact hlast.symm
  idle_eof place hplace := by
    rw [List.drop_eq_nil_of_le (TokenStream.le_of_ofList_eof hts hplace)]
    exact Control.run_single _ _
  eof_succ place hplace :=
    TokenStream.ofList_of_le (Nat.le_succ_of_le (TokenStream.le_of_ofList_eof hts hplace))

end Monkey
