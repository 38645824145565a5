import Monkey.Transcript
import Monkey.Proofs.CallLimit

/-!
# Conversations

Lines are taken in one after another, each in the session that the line before it
has left. What comes of them does not depend on the limit on active calls. A
transcript writes down the conversation about the lines in front of the first one
that is no text, and tells whether there is such a line.
-/

set_option autoImplicit false

namespace Monkey

/-! ### What a source says -/

def Bytes.statements (source : Bytes) : Program := (Parser.ofTokens (Token.all source)).parse.1

def Bytes.syntaxErrors (source : Bytes) : List ParseError :=
  (Parser.ofTokens (Token.all source)).parse.2.errors

theorem Program.ofBytes_eq (source : Bytes) :
    ofBytes source =
      if source.syntaxErrors.isEmpty then .ok source.statements else .error source.syntaxErrors :=
  rfl

theorem Program.ofBytes_ok {source : Bytes} {program : Program} (h : ofBytes source = .ok program) :
    program = source.statements ∧ source.syntaxErrors = [] := by
  rw [Program.ofBytes_eq] at h
  split at h
  · next hempty =>
    cases h
    exact ⟨rfl, List.isEmpty_iff.1 hempty⟩
  · cases h

theorem Program.ofBytes_error {source : Bytes} {errors : List ParseError}
    (h : ofBytes source = .error errors) : errors = source.syntaxErrors ∧ errors ≠ [] := by
  rw [Program.ofBytes_eq] at h
  split at h
  · cases h
  · next hempty =>
    cases h
    exact ⟨rfl, fun hnil => hempty (List.isEmpty_iff.2 hnil)⟩

/-! ### Lines one after another -/

/-- The lines, from the first session on, get these replies and lead to the last session. -/
inductive Session.Converses (limit : Nat) (scope : ScopeId) :
    Session → List Bytes → List Reply → Session → Prop where
  | done (session : Session) : Converses limit scope session [] [] session
  | turn (line : Bytes) (reply : Reply) (rest : List Bytes) (replies : List Reply)
      (first next last : Session) (h : first.interpret limit line scope = some (reply, next))
      (hrest : Converses limit scope next rest replies last) :
      Converses limit scope first (line :: rest) (reply :: replies) last

section

variable {limit more : Nat} {scope : ScopeId} {first middle last other : Session}
  {lines rest : List Bytes} {replies others : List Reply}

theorem Session.interpret_of_le (h : limit ≤ more) {line : Bytes} {reply : Reply}
    (hline : first.interpret limit line scope = some (reply, last)) :
    first.interpret more line scope = some (reply, last) := by
  unfold interpret at hline ⊢
  split at hline
  · exact hline
  · exact Session.evaluate_of_le h hline

theorem Session.interpret_unique {line : Bytes} {reply answer : Reply}
    (h : first.interpret limit line scope = some (reply, last))
    (h' : first.interpret more line scope = some (answer, other)) :
    reply = answer ∧ last = other := by
  have hboth : some (reply, last) = some (answer, other) := by
    rcases Nat.le_total limit more with hle | hle
    · exact (Session.interpret_of_le hle h).symm.trans h'
    · exact h.symm.trans (Session.interpret_of_le hle h')
  cases hboth
  exact ⟨rfl, rfl⟩

namespace Session.Converses

theorem length_eq (h : first.Converses limit scope lines replies last) :
    replies.length = lines.length := by
  induction h with
  | done => rfl
  | turn _ _ _ _ _ _ _ _ _ ih => simp [ih]

theorem append (h : first.Converses limit scope lines replies middle)
    (h' : middle.Converses limit scope rest others last) :
    first.Converses limit scope (lines ++ rest) (replies ++ others) last := by
  induction h with
  | done => exact h'
  | turn line reply lines replies first next _ hline _ ih =>
    exact .turn line reply _ _ first next last hline (ih h')

theorem of_append (h : first.Converses limit scope (lines ++ rest) replies last) :
    ∃ front back middle, replies = front ++ back ∧
      first.Converses limit scope lines front middle ∧
      middle.Converses limit scope rest back last := by
  induction lines generalizing first replies with
  | nil => exact ⟨[], replies, first, rfl, .done first, h⟩
  | cons line lines ih =>
    cases h with
    | turn _ reply _ replies _ next _ hline hrest =>
      obtain ⟨front, back, middle, rfl, hfront, hback⟩ := ih hrest
      exact ⟨reply :: front, back, middle, rfl,
        .turn line reply lines front first next middle hline hfront, hback⟩

theorem unique (h : first.Converses limit scope lines replies last)
    (h' : first.Converses more scope lines others other) : replies = others ∧ last = other := by
  induction h generalizing others with
  | done =>
    cases h'
    exact ⟨rfl, rfl⟩
  | turn line reply lines replies first next last hline _ ih =>
    cases h' with
    | turn _ answer _ others _ next' _ hline' hrest' =>
      obtain ⟨rfl, rfl⟩ := Session.interpret_unique hline hline'
      obtain ⟨rfl, rfl⟩ := ih hrest'
      exact ⟨rfl, rfl⟩

end Session.Converses

namespace Transcript

def written : List Reply → String
  | [] => prompt
  | reply :: replies => prompt ++ reply.text ++ written replies

def breakdown (lines : List Bytes) : Option InputError :=
  if lines.all Bytes.isText then none else some .notText

theorem ofLines_eq_some_iff (transcript : Transcript) :
    ofLines limit scope first lines = some transcript ↔
      ∃ replies last, first.Converses limit scope (lines.takeWhile Bytes.isText) replies last ∧
        transcript = ⟨written replies, breakdown lines⟩ := by
  induction lines generalizing first transcript with
  | nil =>
    constructor
    · rintro ⟨⟩
      exact ⟨[], first, .done first, rfl⟩
    · rintro ⟨_, _, ⟨⟩, rfl⟩
      rfl
  | cons line lines ih =>
    unfold ofLines Session.turn
    cases hline : line.isText with
    | false =>
      have hbroken : breakdown (line :: lines) = some .notText := by simp [breakdown, hline]
      rw [List.takeWhile_cons_of_neg (by simp [hline]), hbroken]
      constructor
      · rintro ⟨⟩
        exact ⟨[], first, .done first, rfl⟩
      · rintro ⟨_, _, ⟨⟩, rfl⟩
        rfl
    | true =>
      have hlater : breakdown (line :: lines) = breakdown lines := by simp [breakdown, hline]
      rw [List.takeWhile_cons_of_pos hline, hlater, if_pos rfl]
      cases hturn : first.interpret limit line scope with
      | none =>
        constructor
        · exact fun h => nomatch h
        · rintro ⟨_, _, hconverses, _⟩
          cases hconverses with
          | turn _ _ _ _ _ _ _ hreply _ =>
            rw [hturn] at hreply
            cases hreply
      | some made =>
        obtain ⟨reply, next⟩ := made
        constructor
        · intro h
          obtain ⟨later, hofLines, rfl⟩ := Option.map_eq_some_iff.1 h
          obtain ⟨replies, last, hrest, rfl⟩ := (ih later).1 hofLines
          exact ⟨reply :: replies, last,
            .turn line reply _ replies first next last hturn hrest, rfl⟩
        · rintro ⟨_, last, hconverses, rfl⟩
          cases hconverses with
          | turn _ answer _ replies _ next' _ hreply hrest =>
            rw [hturn] at hreply
            cases hreply
            refine Option.map_eq_some_iff.2 ⟨⟨written replies, breakdown lines⟩, ?_, rfl⟩
            exact (ih _).2 ⟨replies, last, hrest, rfl⟩

end Transcript

end

end Monkey
