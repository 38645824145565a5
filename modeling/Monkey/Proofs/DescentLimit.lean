import Monkey.Parser.Descent

/-!
# Enough nested calls

How many calls of one another the functions of the parser can have at work depends
on the tokens in front of them only. A call that reads nothing itself is followed,
before the next such call, by one that does, and no call is made at the end of
input that does not come back at once. So twice the number of tokens, and a few
more, is a limit that is never reached, although the end of input can be passed.
-/

set_option autoImplicit false

namespace Monkey

/-- The reading has come to an end, at the place where it began or behind it. -/
def Reading.Finished {α : Type} (start : Nat) : Reading α → Prop
  | .done _ place _ => start ≤ place
  | .broken place _ => start ≤ place
  | .unfinished => False

theorem Reading.Finished.mono {α : Type} {start start' : Nat} {reading : Reading α}
    (h : reading.Finished start) (hstart : start' ≤ start) : reading.Finished start' := by
  cases reading with
  | done result place notes => exact Nat.le_trans hstart h
  | broken place notes => exact Nat.le_trans hstart h
  | unfinished => exact h

theorem Reading.Finished.after {α : Type} {start : Nat} {reading : Reading α}
    (h : reading.Finished start) (notes : List Note) : (reading.after notes).Finished start := by
  cases reading <;> exact h

namespace Descent

def Ends {α : Type} (low : Nat) (descent : Descent α) : Prop :=
  ∀ place, low ≤ place → (descent place).Finished place

section Parts

variable {α β : Type} {low place : Nat}

theorem Ends.pure (result : α) : (pure result).Ends low := fun place _ => Nat.le_refl place

theorem either_finished {first : Descent α} {next : α → Descent β} {otherwise : Descent β}
    (h : (first place).Finished place) (hnext : ∀ result, (next result).Ends place)
    (hotherwise : otherwise.Ends place) : (first.either next otherwise place).Finished place := by
  unfold either
  cases hfirst : first place with
  | done result stop notes =>
    rw [hfirst] at h
    exact ((hnext result stop h).mono h).after notes
  | broken stop notes =>
    rw [hfirst] at h
    exact ((hotherwise stop h).mono h).after notes
  | unfinished => rw [hfirst] at h; exact h

theorem bind_finished {first : Descent α} {next : α → Descent β}
    (h : (first place).Finished place) (hnext : ∀ result, (next result).Ends place) :
    (first.bind next place).Finished place :=
  either_finished h hnext fun stop _ => Nat.le_refl stop

theorem attempt_finished {body : Descent Stmt} (h : (body place).Finished place) :
    (attempt body place).Finished place := by
  unfold attempt
  split <;> next hread => rw [hread] at h; exact h

theorem Ends.mono {descent : Descent α} {low' : Nat} (h : descent.Ends low) (hlow : low ≤ low') :
    descent.Ends low' := fun place hplace => h place (Nat.le_trans hlow hplace)

theorem Ends.bind {first : Descent α} {next : α → Descent β} (h : first.Ends low)
    (hnext : ∀ result, (next result).Ends low) : (first.bind next).Ends low :=
  fun place hplace => bind_finished (h place hplace) fun result => (hnext result).mono hplace

theorem advance_finished {next : Unit → Descent β} (h : (next ()).Ends (place + 1)) :
    (advance.bind next place).Finished place := by
  rw [advance_bind]
  exact (h (place + 1) (Nat.le_refl _)).mono (Nat.le_succ place)

theorem Ends.advance {next : Unit → Descent β} (h : (next ()).Ends low) :
    (advance.bind next).Ends low := fun _ hplace =>
  advance_finished (h.mono (Nat.le_succ_of_le hplace))

end Parts

structure Readers.Ends (low : Nat) (readers : Readers) : Prop where
  expression : ∀ level, (readers.expression level).Ends low
  extension : ∀ level left, (readers.extension level left).Ends low
  arguments : ∀ es, (readers.arguments es).Ends low
  parameters : ∀ ps, (readers.parameters ps).Ends low
  block : ∀ ss, (readers.block ss).Ends low

section Calls

variable {stream : TokenStream} {low : Nat}

theorem expect_cases (stream : TokenStream) (expected : Token) (place : Nat) :
    expect stream expected place = .done () (place + 1) [] ∨
      ∃ notes, expect stream expected place = .broken place notes := by
  unfold expect
  split
  · exact .inl rfl
  · exact .inr ⟨_, rfl⟩

theorem expectName_cases (stream : TokenStream) (place : Nat) :
    (∃ name, expectName stream place = .done name (place + 1) []) ∨
      ∃ notes, expectName stream place = .broken place notes := by
  unfold expectName
  split
  · exact .inl ⟨_, rfl⟩
  · exact .inr ⟨_, rfl⟩

theorem expect_finished {α : Type} {expected : Token} {next : Unit → Descent α} {place : Nat}
    (h : (next ()).Ends (place + 1)) :
    ((expect stream expected).bind next place).Finished place := by
  rcases expect_cases stream expected place with hread | ⟨notes, hread⟩
  · rw [bind_done hread]
    exact ((h (place + 1) (Nat.le_refl _)).mono (Nat.le_succ place)).after []
  · rw [bind_broken hread]
    exact Nat.le_refl place

theorem expectName_finished {α : Type} {next : String → Descent α} {place : Nat}
    (h : ∀ name, (next name).Ends (place + 1)) :
    ((expectName stream).bind next place).Finished place := by
  rcases expectName_cases stream place with ⟨name, hread⟩ | ⟨notes, hread⟩
  · rw [bind_done hread]
    exact ((h name (place + 1) (Nat.le_refl _)).mono (Nat.le_succ place)).after []
  · rw [bind_broken hread]
    exact Nat.le_refl place

theorem expect_bind_ends {α : Type} {expected : Token} {next : Unit → Descent α}
    (h : (next ()).Ends low) : ((expect stream expected).bind next).Ends low :=
  fun _ hplace => expect_finished (h.mono (Nat.le_succ_of_le hplace))

theorem semicolon_ends : (semicolon stream).Ends low := by
  intro place _
  unfold semicolon
  split
  · exact Nat.le_succ place
  · exact Nat.le_refl place

variable {readers : Readers} {place : Nat}

theorem block_ends (h : readers.Ends low) : (block readers).Ends low := (h.block []).advance

theorem operation_finished (h : readers.Ends (place + 1)) (o : Operator) :
    (operation readers o place).Finished place :=
  advance_finished <| (h.expression 5).bind fun _ => .pure _

theorem group_finished (h : readers.Ends (place + 1)) :
    (group stream readers place).Finished place :=
  advance_finished <| (h.expression 0).bind fun _ => expect_bind_ends (.pure _)

theorem alternative_ends (h : readers.Ends low) (c : Expr) (a : Block) :
    (alternative stream readers c a).Ends low := by
  intro place hplace
  unfold alternative
  split
  · exact (expect_bind_ends ((block_ends h).bind fun _ => .pure _)).advance place hplace
  · exact Nat.le_refl place

theorem conditional_finished (h : readers.Ends (place + 1)) :
    (conditional stream readers place).Finished place :=
  expect_finished <| .advance <| (h.expression 0).bind fun _ =>
    expect_bind_ends <| expect_bind_ends <| (block_ends h).bind fun _ => alternative_ends h _ _

theorem parameters_ends (h : readers.Ends low) : (parameters stream readers).Ends low := by
  intro place hplace
  unfold parameters
  split
  · exact Nat.le_succ place
  · exact expectName_finished fun _ => (h.parameters _).mono (Nat.le_succ_of_le hplace)

theorem literal_finished (h : readers.Ends (place + 1)) :
    (literal stream readers place).Finished place :=
  expect_finished <| (parameters_ends h).bind fun _ =>
    expect_bind_ends <| (block_ends h).bind fun _ => .pure _

theorem operand_finished (h : stream place ≠ .eof → readers.Ends (place + 1)) :
    (operand stream readers place).Finished place := by
  unfold operand
  split
  case h_2 => split <;> exact Nat.le_refl place
  case h_4 ht => exact operation_finished (h (by simp [ht])) .not
  case h_5 ht => exact operation_finished (h (by simp [ht])) .minus
  case h_6 ht => exact group_finished (h (by simp [ht]))
  case h_7 ht => exact conditional_finished (h (by simp [ht]))
  case h_8 ht => exact literal_finished (h (by simp [ht]))
  all_goals exact Nat.le_refl place

theorem arguments_finished (h : readers.Ends (place + 1)) :
    (arguments stream readers place).Finished place := by
  unfold arguments
  split
  · exact Nat.le_succ place
  · exact advance_finished <| (h.expression 0).bind fun _ => h.arguments _

theorem extended_finished (h : readers.Ends (place + 1)) (left : Expr) :
    (extended stream readers left place).Finished place := by
  unfold extended
  split
  · exact advance_finished <| (h.expression _).bind fun _ => .pure _
  · exact bind_finished (arguments_finished h) fun _ => .pure _

theorem binding_finished (h : readers.Ends (place + 1)) :
    (binding stream readers place).Finished place :=
  expectName_finished fun _ => expect_bind_ends <| .advance <| (h.expression 0).bind fun _ =>
    semicolon_ends.bind fun _ => .pure _

theorem returning_finished (h : readers.Ends (place + 1)) :
    (returning stream readers place).Finished place := by
  unfold returning
  split
  · exact Nat.le_succ place
  · split
    · exact Nat.le_refl place
    · exact advance_finished <| (h.expression 0).bind fun _ => semicolon_ends.bind fun _ => .pure _

theorem statement_finished (h : readers.Ends (place + 1))
    (hexpression : (readers.expression 0 place).Finished place) :
    (statement stream readers place).Finished place := by
  apply attempt_finished
  split
  · exact binding_finished h
  · exact returning_finished h
  · exact bind_finished hexpression fun _ => semicolon_ends.bind fun _ => .pure _

theorem synchronize_ends (h : readers.skipping.Ends low) :
    (synchronize stream readers).Ends low := by
  intro place hplace
  unfold synchronize
  split
  · exact Nat.le_refl place
  · exact h place hplace

theorem resumed_ends {ss : Block} (h : (readers.block ss).Ends (low + 1)) :
    (resumed stream readers ss).Ends low := by
  intro place hplace
  unfold resumed
  split
  · exact Nat.le_refl place
  · exact advance_finished (h.mono (Nat.succ_le_succ hplace))

end Calls

/-- With `limit` nested calls, the functions come to an end where the tokens up to `stop`
are few enough. -/
structure Readers.Sufficient (stop limit : Nat) (readers : Readers) : Prop where
  expression : ∀ level place, 2 * (stop - place) + 2 ≤ limit →
    (readers.expression level place).Finished place
  extension : ∀ level left place, 2 * (stop - place) + 1 ≤ limit →
    (readers.extension level left place).Finished place
  arguments : ∀ es place, 2 * (stop - place) + 1 ≤ limit →
    (readers.arguments es place).Finished place
  parameters : ∀ ps place, 2 * (stop - place) + 1 ≤ limit →
    (readers.parameters ps place).Finished place
  block : ∀ ss place, 2 * (stop - place) + 3 ≤ limit → (readers.block ss place).Finished place
  skipping : ∀ place, 2 * (stop - place) + 1 ≤ limit → (readers.skipping place).Finished place
  program : ∀ ss place, 2 * (stop - place) + 3 ≤ limit → (readers.program ss place).Finished place

section Enough

variable {stream : TokenStream} {stop limit place : Nat} {readers : Readers}
  (hstop : ∀ place, stop ≤ place → stream place = .eof) (h : readers.Sufficient stop limit)

include h in
theorem Readers.Sufficient.ends (hlimit : 2 * (stop - place) + 3 ≤ limit) :
    readers.Ends place where
  expression level q hq := h.expression level q (by omega)
  extension level left q hq := h.extension level left q (by omega)
  arguments es q hq := h.arguments es q (by omega)
  parameters ps q hq := h.parameters ps q (by omega)
  block ss q hq := h.block ss q (by omega)

include hstop

theorem lt_stop (ht : stream place ≠ .eof) : place < stop :=
  Nat.lt_of_not_le fun hle => ht (hstop place hle)

include h

theorem expression_sufficient (level : Nat) (hlimit : 2 * (stop - place) + 2 ≤ limit + 1) :
    (expression stream readers level place).Finished place := by
  refine bind_finished (operand_finished fun ht => ?_) fun left q hq =>
    h.extension level left q (by omega)
  have hplace := lt_stop hstop ht
  exact h.ends (by omega)

theorem extension_sufficient (level : Nat) (left : Expr)
    (hlimit : 2 * (stop - place) + 1 ≤ limit + 1) :
    (extension stream readers level left place).Finished place := by
  unfold extension
  split
  · next hlevel =>
    have hplace : place + 1 < stop := lt_stop hstop fun ht => by simp [ht, Token.level] at hlevel
    rw [advance_bind]
    have hextended : (extended stream readers left (place + 1)).Finished (place + 1) :=
      extended_finished (h.ends (by omega)) left
    exact (bind_finished hextended fun e q hq => h.extension level e q (by omega)).mono
      (Nat.le_succ place)
  · exact Nat.le_refl place

theorem moreArguments_sufficient (es : List Expr) (hlimit : 2 * (stop - place) + 1 ≤ limit + 1) :
    (moreArguments stream readers es place).Finished place := by
  unfold moreArguments
  split
  · next ht =>
    have hplace : place + 1 < stop := lt_stop hstop (by simp [ht])
    have hends : readers.Ends (place + 2) := h.ends (by omega)
    rw [advance_bind]
    exact (advance_finished ((hends.expression 0).bind fun _ => hends.arguments _)).mono
      (Nat.le_succ place)
  · exact expect_finished (.pure _)

theorem moreParameters_sufficient (ps : List String)
    (hlimit : 2 * (stop - place) + 1 ≤ limit + 1) :
    (moreParameters stream readers ps place).Finished place := by
  unfold moreParameters
  split
  · next ht =>
    have hplace : place + 1 < stop := lt_stop hstop (by simp [ht])
    have hends : readers.Ends (place + 2) := h.ends (by omega)
    rw [advance_bind]
    exact (expectName_finished fun _ => hends.parameters _).mono (Nat.le_succ place)
  · exact expect_finished (.pure _)

theorem skipping_sufficient (hlimit : 2 * (stop - place) + 1 ≤ limit + 1) :
    (skipping stream readers place).Finished place := by
  unfold skipping
  split
  · exact Nat.le_refl place
  · next hopen =>
    have hplace : place < stop := lt_stop hstop fun ht => hopen (.inr (.inl ht))
    rw [advance_bind]
    exact (h.skipping (place + 1) (by omega)).mono (Nat.le_succ place)

theorem moreStatements_sufficient (ss : Block) (hlimit : 2 * (stop - place) + 3 ≤ limit + 1) :
    (moreStatements stream readers ss place).Finished place := by
  unfold moreStatements
  split
  · exact Nat.le_refl place
  · next hopen =>
    have hplace : place < stop := lt_stop hstop fun ht => hopen (.inr ht)
    have hends : readers.Ends (place + 1) := h.ends (by omega)
    refine either_finished
      (statement_finished hends (h.expression 0 place (by omega))) (fun s q hq => ?_) ?_
    · exact advance_finished ((hends.block _).mono (Nat.succ_le_succ hq))
    · have hskipping : readers.skipping.Ends place := fun q hq => h.skipping q (by omega)
      exact (synchronize_ends hskipping).bind fun _ => resumed_ends (hends.block ss)

theorem topStatements_sufficient (ss : Program) (hlimit : 2 * (stop - place) + 3 ≤ limit + 1) :
    (topStatements stream readers ss place).Finished place := by
  unfold topStatements
  split
  · exact Nat.le_refl place
  · next hopen =>
    have hplace : place < stop := lt_stop hstop hopen
    have hends : readers.Ends (place + 1) := h.ends (by omega)
    have hprogram : ∀ ss : Program, (readers.program ss).Ends (place + 1) :=
      fun ss q hq => h.program ss q (by omega)
    refine either_finished
      (statement_finished hends (h.expression 0 place (by omega))) (fun s q hq => ?_) ?_
    · exact advance_finished ((hprogram _).mono (Nat.succ_le_succ hq))
    · have hskipping : readers.skipping.Ends place := fun q hq => h.skipping q (by omega)
      refine (synchronize_ends hskipping).bind fun _ q hq => ?_
      exact advance_finished ((hprogram ss).mono (Nat.succ_le_succ hq))

theorem around_sufficient : (Readers.around stream readers).Sufficient stop (limit + 1) where
  expression level _ := expression_sufficient hstop h level
  extension level left _ := extension_sufficient hstop h level left
  arguments es _ := moreArguments_sufficient hstop h es
  parameters ps _ := moreParameters_sufficient hstop h ps
  block ss _ := moreStatements_sufficient hstop h ss
  skipping _ := skipping_sufficient hstop h
  program ss _ := topStatements_sufficient hstop h ss

end Enough

theorem readers_sufficient {stream : TokenStream} {stop : Nat}
    (hstop : ∀ place, stop ≤ place → stream place = .eof) (limit : Nat) :
    (readers stream limit).Sufficient stop limit := by
  induction limit with
  | zero => constructor <;> intros <;> omega
  | succ limit ih => exact around_sufficient hstop ih

section Stops

variable {α β : Type} {stream : TokenStream}

def AtEof (stream : TokenStream) : Reading α → Prop
  | .done _ place _ => stream place = .eof
  | _ => True

theorem AtEof.after {reading : Reading α} (h : AtEof stream reading) (notes : List Note) :
    AtEof stream (reading.after notes) := by
  cases reading <;> exact h

theorem either_atEof {first : Descent α} {next : α → Descent β} {otherwise : Descent β}
    {place : Nat} (hnext : ∀ result stop, AtEof stream (next result stop))
    (hotherwise : ∀ stop, AtEof stream (otherwise stop)) :
    AtEof stream (first.either next otherwise place) := by
  unfold either
  split
  · exact (hnext _ _).after _
  · exact (hotherwise _).after _
  · trivial

theorem program_atEof (stream : TokenStream) (limit : Nat) (ss : Program) (place : Nat) :
    AtEof stream ((readers stream limit).program ss place) := by
  induction limit generalizing ss place with
  | zero => trivial
  | succ limit ih =>
    change AtEof stream (topStatements stream (readers stream limit) ss place)
    have hgo : ∀ (ss : Program) (stop : Nat),
        AtEof stream ((advance.bind fun _ => (readers stream limit).program ss) stop) := by
      intro ss stop
      rw [advance_bind]
      exact ih ss (stop + 1)
    unfold topStatements
    split
    · next heof => exact heof
    · exact either_atEof (fun _ => hgo _) fun _ =>
        either_atEof (fun _ => hgo _) fun _ => trivial

end Stops

end Descent

/-- Reading a program comes to an end. -/
theorem TokenStream.read_finished {stream : TokenStream} {stop limit : Nat}
    (hstop : ∀ place, stop ≤ place → stream place = .eof) (hlimit : 2 * stop + 3 ≤ limit)
    (place : Nat) : (stream.read limit place).Finished place :=
  (Descent.readers_sufficient hstop limit).program [] place (by omega)

end Monkey
