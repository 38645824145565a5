import Monkey.Parser.Descent
import Monkey.Proofs.ParserMoves

/-!
# The account of errors

In the order in which the parser writes things down, an error is followed at once by
the end, without a statement, of the attempt that it makes break, and no attempt ends
without a statement in any other way. Attempts begin at different tokens, and errors
are about tokens from the left to the right.

All of this is said of the stretch of tokens that a function reads, and holds of its
function because it holds of the functions that it calls.
-/

set_option autoImplicit false

namespace Monkey

/-- The place of the token that an error found at a place is about: the next one if that
is not the expected one. -/
def ParseError.place (current : Nat) : ParseError → Nat
  | unexpected _ _ => current + 1
  | noExpression _ | integerTooLarge _ => current

namespace Note

def error? : Note → Option (Nat × ParseError)
  | error place e => some (place, e)
  | attempt _ _ _ => none

def attempt? : Note → Option (Nat × Option Stmt)
  | error _ _ => none
  | attempt start _ result => some (start, result)

def errors (notes : List Note) : List (Nat × ParseError) := notes.filterMap error?

def attempts (notes : List Note) : List (Nat × Option Stmt) := notes.filterMap attempt?

@[simp] theorem errors_append (notes later : List Note) :
    errors (notes ++ later) = errors notes ++ errors later :=
  List.filterMap_append

@[simp] theorem attempts_append (notes later : List Note) :
    attempts (notes ++ later) = attempts notes ++ attempts later :=
  List.filterMap_append

@[simp] theorem errors_error (place : Nat) (e : ParseError) (notes : List Note) :
    errors (.error place e :: notes) = (place, e) :: errors notes :=
  rfl

@[simp] theorem errors_attempt (start stop : Nat) (result : Option Stmt) (notes : List Note) :
    errors (.attempt start stop result :: notes) = errors notes :=
  rfl

@[simp] theorem attempts_error (place : Nat) (e : ParseError) (notes : List Note) :
    attempts (.error place e :: notes) = attempts notes :=
  rfl

@[simp] theorem attempts_attempt (start stop : Nat) (result : Option Stmt) (notes : List Note) :
    attempts (.attempt start stop result :: notes) = (start, result) :: attempts notes :=
  rfl

@[simp] theorem errors_nil : errors [] = [] := rfl

@[simp] theorem attempts_nil : attempts [] = [] := rfl

/-- Every error belongs to the attempt that ends behind it without a statement, and
every such attempt has its error, about the token it has stopped at or the next one. -/
inductive Matched : List Note → Prop where
  | nil : Matched []
  | completed (start stop : Nat) (s : Stmt) (notes : List Note) (h : Matched notes) :
      Matched (.attempt start stop (some s) :: notes)
  | givenUp (e : ParseError) (start stop : Nat) (notes : List Note) (h : Matched notes) :
      Matched (.error (e.place stop) e :: .attempt start stop none :: notes)

/-- The last error makes an attempt break that stops at a place. -/
def Breaking (stop : Nat) (notes : List Note) : Prop :=
  ∃ before e, Matched before ∧ notes = before ++ [.error (e.place stop) e]

theorem Matched.append {notes later : List Note} (h : Matched notes) (h' : Matched later) :
    Matched (notes ++ later) := by
  induction h with
  | nil => exact h'
  | completed start stop s notes _ ih => exact .completed start stop s _ ih
  | givenUp e start stop notes _ ih => exact .givenUp e start stop _ ih

theorem Matched.breaking {notes later : List Note} {stop : Nat} (h : Matched notes)
    (h' : Breaking stop later) : Breaking stop (notes ++ later) := by
  obtain ⟨before, e, hbefore, rfl⟩ := h'
  exact ⟨notes ++ before, e, h.append hbefore, by rw [List.append_assoc]⟩

theorem Breaking.ended {notes : List Note} {stop : Nat} (h : Breaking stop notes) (start : Nat) :
    Matched (notes ++ [.attempt start stop none]) := by
  obtain ⟨before, e, hbefore, rfl⟩ := h
  rw [List.append_assoc]
  exact hbefore.append (.givenUp e start stop [] .nil)

theorem Matched.errors_length {notes : List Note} (h : Matched notes) :
    (errors notes).length = ((attempts notes).filter fun attempt => attempt.2.isNone).length := by
  induction h with
  | nil => rfl
  | completed start stop s notes _ ih => simpa using ih
  | givenUp e start stop notes _ ih => simpa using ih

end Note

/-- The notes are about a stretch of tokens whose last place is `last`: the errors from
`first` on up to the token behind it, the attempts from `begin` on. -/
structure TokenStream.Accounts (stream : TokenStream) (first begin last : Nat)
    (notes : List Note) : Prop where
  errors : ∀ e ∈ Note.errors notes, first ≤ e.1 ∧ e.1 ≤ last + 1 ∧ e.2.Blames (stream e.1)
  attempts : ∀ a ∈ Note.attempts notes, begin ≤ a.1 ∧ a.1 ≤ last ∧ stream a.1 ≠ .eof
  ordered : (Note.errors notes).Pairwise fun e f => e.1 ≤ f.1
  distinct : (Note.attempts notes).Pairwise fun a b => a.1 ≠ b.1
  first_le : first ≤ last + 1
  begin_le : begin ≤ last + 1

namespace TokenStream.Accounts

variable {stream : TokenStream} {first begin last : Nat} {notes : List Note}

theorem nothing (hfirst : first ≤ last + 1) (hbegin : begin ≤ last + 1) :
    stream.Accounts first begin last [] := by
  refine ⟨?_, ?_, .nil, .nil, hfirst, hbegin⟩ <;> intro _ h <;> cases h

theorem mono (h : stream.Accounts first begin last notes) {first' begin' : Nat}
    (hfirst : first' ≤ first) (hbegin : begin' ≤ begin) :
    stream.Accounts first' begin' last notes := by
  refine ⟨fun e he => ?_, fun a ha => ?_, h.ordered, h.distinct, ?_, ?_⟩
  · exact ⟨Nat.le_trans hfirst (h.errors e he).1, (h.errors e he).2⟩
  · exact ⟨Nat.le_trans hbegin (h.attempts a ha).1, (h.attempts a ha).2⟩
  · exact Nat.le_trans hfirst h.first_le
  · exact Nat.le_trans hbegin h.begin_le

theorem append (h : stream.Accounts first begin last notes) {last' : Nat} {later : List Note}
    (h' : stream.Accounts (last + 1) (last + 1) last' later) :
    stream.Accounts first begin last' (notes ++ later) := by
  have hlast := h'.first_le
  have hfirst := h.first_le
  have hbegin := h.begin_le
  refine ⟨fun e he => ?_, fun a ha => ?_, ?_, ?_, by omega, by omega⟩
  · rw [Note.errors_append] at he
    rcases List.mem_append.1 he with he | he
    · obtain ⟨hlow, hhigh, hblames⟩ := h.errors e he
      exact ⟨hlow, by omega, hblames⟩
    · obtain ⟨hlow, hhigh, hblames⟩ := h'.errors e he
      exact ⟨by omega, hhigh, hblames⟩
  · rw [Note.attempts_append] at ha
    rcases List.mem_append.1 ha with ha | ha
    · obtain ⟨hlow, hhigh, hne⟩ := h.attempts a ha
      exact ⟨hlow, by omega, hne⟩
    · obtain ⟨hlow, hhigh, hne⟩ := h'.attempts a ha
      exact ⟨by omega, hhigh, hne⟩
  · rw [Note.errors_append]
    refine List.pairwise_append.2 ⟨h.ordered, h'.ordered, fun e he f hf => ?_⟩
    exact Nat.le_trans (h.errors e he).2.1 (h'.errors f hf).1
  · rw [Note.attempts_append]
    refine List.pairwise_append.2 ⟨h.distinct, h'.distinct, fun a ha b hb => ?_⟩
    have hhigh := (h.attempts a ha).2.1
    have hlow := (h'.attempts b hb).1
    omega

theorem error {place : Nat} {e : ParseError} (hplace : place = last ∨ place = last + 1)
    (he : e.Blames (stream place)) (hfirst : first ≤ place) (hbegin : begin ≤ last + 1) :
    stream.Accounts first begin last [.error place e] := by
  refine ⟨fun f hf => ?_, fun a ha => (by cases ha), List.pairwise_singleton _ _, .nil,
    by omega, hbegin⟩
  obtain rfl := List.mem_singleton.1 hf
  exact ⟨hfirst, by omega, he⟩

theorem ended {place : Nat} (h : stream.Accounts place (place + 1) last notes)
    (hplace : stream place ≠ .eof) (result : Option Stmt) :
    stream.Accounts place place last (notes ++ [.attempt place last result]) := by
  have hlast := h.begin_le
  refine ⟨fun e he => h.errors e (by simpa using he), fun a ha => ?_, by simpa using h.ordered,
    ?_, h.first_le, h.first_le⟩
  · rw [Note.attempts_append] at ha
    rcases List.mem_append.1 ha with ha | ha
    · obtain ⟨hlow, hrest⟩ := h.attempts a ha
      exact ⟨by omega, hrest⟩
    · obtain rfl := List.mem_singleton.1 ha
      exact ⟨Nat.le_refl _, Nat.le_of_succ_le_succ hlast, hplace⟩
  · rw [Note.attempts_append]
    refine List.pairwise_append.2 ⟨h.distinct, List.pairwise_singleton _ _, fun a ha b hb => ?_⟩
    have hlow := (h.attempts a ha).1
    obtain rfl := List.mem_singleton.1 hb
    exact Nat.ne_of_gt hlow

end TokenStream.Accounts

/-- The notes of a reading account for the stretch it has read, from `first` and `begin` on,
and it is broken only if that is allowed. -/
def Reading.Accounted {α : Type} (stream : TokenStream) (breaks : Prop) (first begin : Nat) :
    Reading α → Prop
  | .done _ place notes => stream.Accounts first begin place notes ∧ Note.Matched notes
  | .broken place notes =>
    breaks ∧ stream.Accounts first begin place notes ∧ Note.Breaking place notes
  | .unfinished => True

def Reading.Settled (stream : TokenStream) (start : Nat) : Reading Stmt → Prop
  | .done _ place notes => stream.Accounts start start place notes ∧ Note.Matched notes
  | .broken place notes => stream.Accounts start start place notes ∧ Note.Matched notes
  | .unfinished => True

theorem Reading.Accounted.mono {α : Type} {stream : TokenStream} {breaks breaks' : Prop}
    {first begin first' begin' : Nat} {reading : Reading α}
    (h : reading.Accounted stream breaks first begin) (hbreaks : breaks → breaks')
    (hfirst : first' ≤ first) (hbegin : begin' ≤ begin) :
    reading.Accounted stream breaks' first' begin' := by
  cases reading with
  | done result place notes => exact ⟨h.1.mono hfirst hbegin, h.2⟩
  | broken place notes => exact ⟨hbreaks h.1, h.2.1.mono hfirst hbegin, h.2.2⟩
  | unfinished => exact trivial

theorem Reading.Accounted.after {α : Type} {stream : TokenStream} {breaks : Prop}
    {first begin place : Nat} {notes : List Note}
    (h : stream.Accounts first begin place notes) (hnotes : Note.Matched notes)
    {reading : Reading α} (hreading : reading.Accounted stream breaks (place + 1) (place + 1)) :
    (reading.after notes).Accounted stream breaks first begin := by
  cases reading with
  | done result stop later => exact ⟨h.append hreading.1, hnotes.append hreading.2⟩
  | broken stop later =>
    exact ⟨hreading.1, h.append hreading.2.1, hnotes.breaking hreading.2.2⟩
  | unfinished => exact trivial

namespace Descent

/-- Reading from a place on accounts for the errors from that place or from the next one on,
and the same for the attempts. -/
def Accounted {α : Type} (stream : TokenStream) (breaks : Prop) (first begin : Nat)
    (descent : Descent α) : Prop :=
  ∀ place, (descent place).Accounted stream breaks (place + first) (place + begin)

section Parts

variable {α β : Type} {stream : TokenStream} {breaks : Prop}

theorem pure_accounted (result : α) {first begin place : Nat} (hfirst : first ≤ place + 1)
    (hbegin : begin ≤ place + 1) : (pure result place).Accounted stream breaks first begin :=
  ⟨.nothing hfirst hbegin, .nil⟩

theorem Accounted.pure (result : α) : (pure result).Accounted stream breaks 1 1 := fun _ =>
  pure_accounted result (Nat.le_refl _) (Nat.le_refl _)

theorem Accounted.bind {descent : Descent α} {next : α → Descent β} {first begin : Nat}
    (h : descent.Accounted stream breaks first begin)
    (hnext : ∀ result, (next result).Accounted stream breaks 1 1) :
    (descent.bind next).Accounted stream breaks first begin := by
  intro place
  have hfirst := h place
  cases hreading : descent place with
  | done result stop notes =>
    rw [hreading] at hfirst
    rw [bind_done hreading]
    exact .after hfirst.1 hfirst.2 (hnext result stop)
  | broken stop notes =>
    rw [hreading] at hfirst
    rw [bind_broken hreading]
    exact hfirst
  | unfinished => rw [bind_unfinished hreading]; exact trivial

theorem Accounted.mono {descent : Descent α} {breaks' : Prop} {first begin first' begin' : Nat}
    (h : descent.Accounted stream breaks first begin) (hbreaks : breaks → breaks')
    (hfirst : first' ≤ first) (hbegin : begin' ≤ begin) :
    descent.Accounted stream breaks' first' begin' := fun place =>
  (h place).mono hbreaks (Nat.add_le_add_left hfirst place) (Nat.add_le_add_left hbegin place)

theorem Accounted.advance {next : Unit → Descent β} {first begin : Nat}
    (h : (next ()).Accounted stream breaks first begin) :
    (advance.bind next).Accounted stream breaks 1 1 := by
  intro place
  rw [advance_bind]
  exact (h (place + 1)).mono id (Nat.le_add_right _ _) (Nat.le_add_right _ _)

theorem Accounted.within {descent : Descent α} (h : descent.Accounted stream breaks 1 1) :
    descent.Accounted stream breaks 0 1 :=
  h.mono id (Nat.zero_le 1) (Nat.le_refl 1)

end Parts

structure Readers.Accounted (stream : TokenStream) (readers : Readers) : Prop where
  expression : ∀ level, (readers.expression level).Accounted stream True 0 1
  extension : ∀ level left, (readers.extension level left).Accounted stream True 1 1
  arguments : ∀ es, (readers.arguments es).Accounted stream True 1 1
  parameters : ∀ ps, (readers.parameters ps).Accounted stream True 1 1
  block : ∀ ss, (readers.block ss).Accounted stream True 0 0
  skipping : readers.skipping.Accounted stream False 1 1
  program : ∀ ss, (readers.program ss).Accounted stream False 0 0

section

variable {stream : TokenStream}

theorem error_accounted {α : Type} (e : ParseError) {first begin place : Nat}
    (he : e.Blames (stream (e.place place))) (hfirst : first ≤ e.place place)
    (hbegin : begin ≤ place + 1) :
    (Reading.broken place [.error (e.place place) e] : Reading α).Accounted stream True
      first begin := by
  have hplace : e.place place = place ∨ e.place place = place + 1 := by
    cases e with
    | unexpected => exact .inr rfl
    | _ => exact .inl rfl
  exact ⟨trivial, .error hplace he hfirst hbegin, [], e, .nil, rfl⟩

theorem expect_accounted (expected : Token) :
    (expect stream expected).Accounted stream True 1 1 := by
  intro place
  unfold expect
  split
  · exact ⟨.nothing (Nat.le_succ _) (Nat.le_succ _), .nil⟩
  · exact error_accounted (.unexpected expected.kind _) rfl (Nat.le_refl _) (Nat.le_refl _)

theorem expectName_accounted : (expectName stream).Accounted stream True 1 1 := by
  intro place
  unfold expectName
  split
  · exact ⟨.nothing (Nat.le_succ _) (Nat.le_succ _), .nil⟩
  · exact error_accounted (.unexpected .ident _) rfl (Nat.le_refl _) (Nat.le_refl _)

theorem semicolon_accounted : (semicolon stream).Accounted stream True 1 1 := by
  intro place
  unfold semicolon
  split
  · exact ⟨.nothing (Nat.le_succ _) (Nat.le_succ _), .nil⟩
  · exact pure_accounted _ (Nat.le_refl _) (Nat.le_refl _)

theorem attempt_accounted {body : Descent Stmt} (hbody : body.Accounted stream True 0 1)
    {place : Nat} (hplace : stream place ≠ .eof) :
    (attempt body place).Settled stream place := by
  have hreading := hbody place
  unfold attempt
  cases hresult : body place with
  | done s stop notes =>
    rw [hresult] at hreading
    exact ⟨hreading.1.ended hplace _, hreading.2.append (.completed place stop s [] .nil)⟩
  | broken stop notes =>
    rw [hresult] at hreading
    exact ⟨hreading.2.1.ended hplace _, hreading.2.2.ended place⟩
  | unfinished => exact trivial

variable {readers : Readers} (h : readers.Accounted stream)

include h

theorem block_accounted : (block readers).Accounted stream True 1 1 := (h.block []).advance

theorem operation_accounted (o : Operator) : (operation readers o).Accounted stream True 1 1 :=
  ((h.expression 5).bind fun _ => .pure _).advance

theorem group_accounted : (group stream readers).Accounted stream True 1 1 :=
  ((h.expression 0).bind fun _ => (expect_accounted .rparen).bind fun _ => .pure _).advance

theorem alternative_accounted (c : Expr) (a : Block) :
    (alternative stream readers c a).Accounted stream True 1 1 := by
  intro place
  unfold alternative
  split
  · exact Accounted.advance ((expect_accounted .lbrace).bind fun _ =>
      (block_accounted h).bind fun _ => .pure _) place
  · exact Accounted.pure _ place

theorem conditional_accounted : (conditional stream readers).Accounted stream True 1 1 :=
  (expect_accounted .lparen).bind fun _ => .advance <| (h.expression 0).bind fun _ =>
    (expect_accounted .rparen).bind fun _ => (expect_accounted .lbrace).bind fun _ =>
      (block_accounted h).bind fun _ => alternative_accounted h _ _

theorem moreParameters_accounted (ps : List String) :
    (moreParameters stream readers ps).Accounted stream True 1 1 := by
  intro place
  unfold moreParameters
  split
  · exact Accounted.advance (expectName_accounted.bind fun _ => h.parameters _) place
  · exact (expect_accounted .rparen).bind (fun _ => .pure _) place

theorem parameters_accounted : (parameters stream readers).Accounted stream True 1 1 := by
  intro place
  unfold parameters
  split
  · exact ⟨.nothing (Nat.le_succ _) (Nat.le_succ _), .nil⟩
  · exact expectName_accounted.bind (fun _ => h.parameters _) place

theorem literal_accounted : (literal stream readers).Accounted stream True 1 1 :=
  (expect_accounted .lparen).bind fun _ => (parameters_accounted h).bind fun _ =>
    (expect_accounted .lbrace).bind fun _ => (block_accounted h).bind fun _ => .pure _

theorem operand_accounted : (operand stream readers).Accounted stream True 0 1 := by
  intro place
  unfold operand
  split
  case h_2 digits hdigits =>
    split
    · exact (Accounted.pure _).within place
    · exact error_accounted (.integerTooLarge digits) hdigits (Nat.le_refl _) (Nat.le_refl _)
  case h_4 => exact (operation_accounted h .not).within place
  case h_5 => exact (operation_accounted h .minus).within place
  case h_6 => exact (group_accounted h).within place
  case h_7 => exact (conditional_accounted h).within place
  case h_8 => exact (literal_accounted h).within place
  case h_9 => exact error_accounted (.noExpression _) rfl (Nat.le_refl _) (Nat.le_refl _)
  all_goals exact (Accounted.pure _).within place

theorem moreArguments_accounted (es : List Expr) :
    (moreArguments stream readers es).Accounted stream True 1 1 := by
  intro place
  unfold moreArguments
  split
  · exact Accounted.advance (.advance <| (h.expression 0).bind fun _ => h.arguments _) place
  · exact (expect_accounted .rparen).bind (fun _ => .pure _) place

theorem arguments_accounted : (arguments stream readers).Accounted stream True 1 1 := by
  intro place
  unfold arguments
  split
  · exact ⟨.nothing (Nat.le_succ _) (Nat.le_succ _), .nil⟩
  · exact Accounted.advance ((h.expression 0).bind fun _ => h.arguments _) place

theorem extended_accounted (left : Expr) :
    (extended stream readers left).Accounted stream True 1 1 := by
  intro place
  unfold extended
  split
  · exact Accounted.advance ((h.expression _).bind fun _ => .pure _) place
  · exact (arguments_accounted h).bind (fun _ => .pure _) place

theorem extension_accounted (level : Nat) (left : Expr) :
    (extension stream readers level left).Accounted stream True 1 1 := by
  intro place
  unfold extension
  split
  · exact Accounted.advance ((extended_accounted h left).bind fun _ => h.extension level _) place
  · exact Accounted.pure _ place

theorem expression_accounted (level : Nat) :
    (expression stream readers level).Accounted stream True 0 1 :=
  (operand_accounted h).bind fun _ => h.extension level _

theorem binding_accounted : (binding stream readers).Accounted stream True 1 1 :=
  expectName_accounted.bind fun _ => (expect_accounted .assign).bind fun _ =>
    .advance <| (h.expression 0).bind fun _ => semicolon_accounted.bind fun _ => .pure _

theorem returning_accounted : (returning stream readers).Accounted stream True 1 1 := by
  intro place
  unfold returning
  split
  · exact ⟨.nothing (Nat.le_succ _) (Nat.le_succ _), .nil⟩
  · split
    · exact Accounted.pure _ place
    · exact Accounted.advance
        ((h.expression 0).bind fun _ => semicolon_accounted.bind fun _ => .pure _) place

theorem simple_accounted : (simple stream readers).Accounted stream True 0 1 :=
  (h.expression 0).bind fun _ => semicolon_accounted.bind fun _ => .pure _

theorem statement_accounted {place : Nat} (hplace : stream place ≠ .eof) :
    (statement stream readers place).Settled stream place := by
  refine attempt_accounted (fun place => ?_) hplace
  split
  · exact (binding_accounted h).within place
  · exact (returning_accounted h).within place
  · exact simple_accounted h place

theorem synchronize_accounted : (synchronize stream readers).Accounted stream False 1 1 := by
  intro place
  unfold synchronize
  split
  · exact Accounted.pure _ place
  · exact h.skipping place

theorem skipping_accounted : (skipping stream readers).Accounted stream False 1 1 := by
  intro place
  unfold skipping
  split
  · exact Accounted.pure _ place
  · exact Accounted.advance h.skipping place

theorem resumed_accounted (ss : Block) : (resumed stream readers ss).Accounted stream True 1 1 := by
  intro place
  unfold resumed
  split
  · exact Accounted.pure _ place
  · exact Accounted.advance (h.block ss) place

theorem statements_accounted {α : Type} {breaks : Prop} {place : Nat}
    (hplace : stream place ≠ .eof) {next : Stmt → Descent α} {otherwise : Descent α}
    (hnext : ∀ s, (next s).Accounted stream breaks 1 1)
    (hotherwise : otherwise.Accounted stream breaks 1 1) :
    ((statement stream readers).either next otherwise place).Accounted stream breaks
      place place := by
  have hstatement := statement_accounted h hplace
  unfold either
  cases hresult : statement stream readers place with
  | done s stop notes =>
    rw [hresult] at hstatement
    exact .after hstatement.1 hstatement.2 (hnext s stop)
  | broken stop notes =>
    rw [hresult] at hstatement
    exact .after hstatement.1 hstatement.2 (hotherwise stop)
  | unfinished => exact trivial

theorem moreStatements_accounted (ss : Block) :
    (moreStatements stream readers ss).Accounted stream True 0 0 := by
  intro place
  unfold moreStatements
  split
  · exact pure_accounted _ (Nat.le_succ _) (Nat.le_succ _)
  · next hopen =>
    have hsynchronize : (synchronize stream readers).Accounted stream True 1 1 :=
      (synchronize_accounted h).mono False.elim (Nat.le_refl 1) (Nat.le_refl 1)
    exact statements_accounted h (fun heof => hopen (.inr heof)) (fun _ => (h.block _).advance)
      (hsynchronize.bind fun _ => resumed_accounted h ss)

theorem topStatements_accounted (ss : Program) :
    (topStatements stream readers ss).Accounted stream False 0 0 := by
  intro place
  unfold topStatements
  split
  · exact pure_accounted _ (Nat.le_succ _) (Nat.le_succ _)
  · next hopen =>
    exact statements_accounted h hopen (fun _ => (h.program _).advance)
      ((synchronize_accounted h).bind fun _ => (h.program ss).advance)

theorem around_accounted : (Readers.around stream readers).Accounted stream where
  expression := expression_accounted h
  extension := extension_accounted h
  arguments := moreArguments_accounted h
  parameters := moreParameters_accounted h
  block := moreStatements_accounted h
  skipping := skipping_accounted h
  program := topStatements_accounted h

end

theorem readers_accounted (stream : TokenStream) (limit : Nat) :
    (readers stream limit).Accounted stream := by
  induction limit with
  | zero =>
    exact ⟨fun _ _ => trivial, fun _ _ _ => trivial, fun _ _ => trivial, fun _ _ => trivial,
      fun _ _ => trivial, fun _ => trivial, fun _ _ => trivial⟩
  | succ limit ih => exact around_accounted ih

end Descent

end Monkey
