import Monkey.Proofs.Tokenization

/-!
# Streaming and asking mixed

A lexer hands out its tokens as a stream and on request, in any order, and all calls
go on from one place. So together they receive every token once and in order, and
the end of input from then on. Only the stream comes to an end. It ends behind an
end of input that it has delivered itself, whatever requests have found.
-/

set_option autoImplicit false

namespace Monkey

theorem Token.all_length_le (bytes : Bytes) : (Token.all bytes).length ≤ bytes.length := by
  induction bytes using Token.all.induct with
  | case1 bytes hdrop =>
    rw [Token.all_eq, hdrop]
    exact Nat.zero_le _
  | case2 bytes byte rest hdrop _ ih =>
    have hlt := Token.scan_length_lt hdrop
    rw [Token.all_eq, hdrop]
    exact Nat.succ_le_of_lt (Nat.lt_of_le_of_lt ih hlt)

namespace Lexer

variable {lexer : Lexer} {call : Call}

/-! ### One call -/

theorem perform_ended (h : call = .next ∧ lexer.finished = true) :
    lexer.perform call = (none, lexer) := by
  obtain ⟨rfl, hfinished⟩ := h
  exact if_pos hfinished

theorem perform_open (h : ¬ (call = .next ∧ lexer.finished = true)) :
    lexer.perform call = (some lexer.nextToken.1,
      { lexer.nextToken.2 with
        finished := lexer.finished || decide (call = .next ∧ lexer.nextToken.1 = .eof) }) := by
  cases call with
  | nextToken =>
    rw [← lexer.finished_nextToken]
    simp [perform]
  | next =>
    have hfinished : lexer.finished = false := by simpa using h
    change lexer.next = _
    rw [next_open hfinished]
    by_cases heof : lexer.nextToken.1 = .eof
    · simp [heof]
    · rw [if_neg heof, ← lexer.finished_nextToken]
      simp [heof]

theorem perform_eq_none_iff :
    (lexer.perform call).1 = none ↔ call = .next ∧ lexer.finished = true := by
  by_cases h : call = .next ∧ lexer.finished = true
  · rw [perform_ended h]
    exact iff_of_true rfl h
  · rw [perform_open h]
    exact iff_of_false (Option.some_ne_none _) h

theorem perform_of_none (h : (lexer.perform call).1 = none) : (lexer.perform call).2 = lexer := by
  rw [perform_ended (perform_eq_none_iff.1 h)]

theorem perform_of_some {t : Token} (h : (lexer.perform call).1 = some t) :
    t = (Token.all lexer.rest).headD .eof ∧
      Token.all (lexer.perform call).2.rest = (Token.all lexer.rest).tail := by
  have hopen : ¬ (call = .next ∧ lexer.finished = true) := by
    rw [← perform_eq_none_iff, h]
    simp
  rw [perform_open hopen] at h ⊢
  cases h
  exact lexer.nextToken_eq

theorem finished_perform :
    (lexer.perform call).2.finished = true ↔
      lexer.finished = true ∨ (call, (lexer.perform call).1) = (.next, some .eof) := by
  by_cases h : call = .next ∧ lexer.finished = true
  · rw [perform_ended h]
    simp [h.2]
  · rw [perform_open h]
    simp

theorem source_perform (lexer : Lexer) (call : Call) :
    (lexer.perform call).2.source = lexer.source := by
  by_cases h : call = .next ∧ lexer.finished = true
  · rw [perform_ended h]
  · rw [perform_open h]
    exact lexer.source_nextToken

/-! ### All calls -/

theorem performAll_calls (lexer : Lexer) (calls : List Call) :
    (lexer.performAll calls).1.map Prod.fst = calls := by
  induction calls generalizing lexer with
  | nil => rfl
  | cons call calls ih =>
    rw [performAll, List.map_cons, ih]

theorem performAll_tokens (lexer : Lexer) (calls : List Call) :
    let given := (lexer.performAll calls).1.filterMap Prod.snd
    given = (List.range given.length).map fun place => (Token.all lexer.rest).getD place .eof := by
  induction calls generalizing lexer with
  | nil => rfl
  | cons call calls ih =>
    have hlater := ih (lexer.perform call).2
    intro given
    cases hanswer : (lexer.perform call).1 with
    | none =>
      have hgiven : given = ((lexer.perform call).2.performAll calls).1.filterMap Prod.snd := by
        simp [given, performAll, hanswer]
      rw [hgiven, hlater, perform_of_none hanswer]
      simp
    | some t =>
      obtain ⟨ht, hrest⟩ := perform_of_some hanswer
      have hgiven :
        given = t :: ((lexer.perform call).2.performAll calls).1.filterMap Prod.snd := by
        simp [given, performAll, hanswer]
      rw [hgiven, hlater, hrest, List.length_cons, List.length_map, List.length_range,
        List.range_succ_eq_map, List.map_cons, List.map_map, ht]
      cases Token.all lexer.rest <;> rfl

theorem source_performAll (lexer : Lexer) (calls : List Call) :
    (lexer.performAll calls).2.source = lexer.source := by
  induction calls generalizing lexer with
  | nil => rfl
  | cons call calls ih => exact (ih (lexer.perform call).2).trans (source_perform lexer call)

theorem performAll_none_iff {calls : List Call} {earlier later : List (Call × Option Token)}
    {answer : Option Token}
    (h : (lexer.performAll calls).1 = earlier ++ (call, answer) :: later) :
    answer = none ↔ call = .next ∧ (lexer.finished = true ∨ (.next, some .eof) ∈ earlier) := by
  induction calls generalizing lexer earlier with
  | nil => simp [performAll] at h
  | cons first calls ih =>
    cases earlier with
    | nil =>
      cases h
      simpa using perform_eq_none_iff
    | cons entry earlier =>
      obtain ⟨hentry, hlater⟩ := List.cons.inj h
      rw [ih hlater, finished_perform, hentry, or_assoc, List.mem_cons, eq_comm (a := entry)]

theorem performAll_drain (lexer : Lexer) :
    lexer.performAll (List.replicate lexer.drain.1.length .next) =
      (lexer.drain.1.map fun t => (.next, some t), lexer.drain.2) := by
  cases hfinished : lexer.finished with
  | true =>
    rw [drain, if_pos hfinished]
    rfl
  | false =>
    induction hts : Token.all lexer.rest generalizing lexer with
    | nil =>
      have hnext := next_nil hfinished hts
      simp [drain, hfinished, hts, performAll, perform, hnext]
    | cons t ts ih =>
      have hnext := next_cons hfinished hts
      have hlater := lexer.finished_nextToken.trans hfinished
      have hrest := (nextToken_cons hts).2
      have ih := ih lexer.nextToken.2 hlater hrest
      simp only [drain, hlater, hrest, source_nextToken] at ih
      simpa [drain, hfinished, hts, performAll, perform, hnext, List.replicate_succ] using ih

theorem drain_ended (lexer : Lexer) : lexer.drain.2.next.1 = none := by
  have hfinished : lexer.drain.2.finished = true := by
    unfold drain
    split
    · assumption
    · rfl
  rw [next, if_pos hfinished]

theorem drain_length_le (lexer : Lexer) : lexer.drain.1.length ≤ lexer.source.length + 1 := by
  unfold drain
  split
  · exact Nat.zero_le _
  · rw [List.length_append]
    refine Nat.add_le_add_right (Nat.le_trans (Token.all_length_le _) ?_) 1
    rw [rest, List.length_drop]
    exact Nat.sub_le _ _

theorem next_after_eof (hopen : lexer.next.1 ≠ none) (heof : lexer.nextToken.1 = .eof) :
    lexer.nextToken.2.next.1 = some .eof := by
  have hfinished : lexer.nextToken.2.finished = false := by
    rw [finished_nextToken]
    refine Bool.eq_false_iff.2 fun hfinished => hopen ?_
    rw [next, if_pos hfinished]
  have hts : Token.all lexer.rest = [] := by
    cases hts : Token.all lexer.rest with
    | nil => rfl
    | cons t ts => exact absurd ((nextToken_cons hts).1.symm.trans heof) (token_ne_eof hts)
  have hrest : Token.all lexer.nextToken.2.rest = [] := by
    rw [lexer.nextToken_eq.2, hts, List.tail_nil]
  rw [next_nil hfinished hrest]

end Lexer

/-- Whatever calls are made of a lexer, those that are answered receive the tokens of the source
in order, none of them lost or repeated, and the end of input from then on. A call is not
answered if and only if it asks the stream behind an end of input that the stream itself has
delivered. It consumes nothing then, and an end of input found on request leaves the
stream open. What is left can be drained from the stream call by call, in no more calls than
the source has bytes, and one for the end of input. -/
theorem mixed_calls_share_tokens {source : Bytes} {ts : List Token} (hts : Splits source ts)
    (calls : List Lexer.Call) :
    let history := ((Lexer.ofBytes source).performAll calls).1
    let lexer := ((Lexer.ofBytes source).performAll calls).2
    let given := history.filterMap Prod.snd
    history.map Prod.fst = calls ∧ .eof ∉ ts ∧
      given = ((List.range given.length).map fun place => ts.getD place .eof) ∧
      (∀ earlier call answer later, history = earlier ++ (call, answer) :: later →
        (answer = none ↔ call = .next ∧ (.next, some .eof) ∈ earlier)) ∧
      (lexer.next.1 = none → lexer.next.2 = lexer) ∧
      (lexer.next.1 ≠ none → lexer.nextToken.1 = .eof →
        lexer.nextToken.2.next.1 = some .eof) ∧
      lexer.performAll (List.replicate lexer.drain.1.length .next) =
        (lexer.drain.1.map fun t => (.next, some t), lexer.drain.2) ∧
      lexer.drain.2.next.1 = none ∧
      lexer.drain.1.length ≤ source.length + 1 := by
  intro history lexer given
  have hsource : lexer.source = source := Lexer.source_performAll _ _
  refine ⟨Lexer.performAll_calls _ _, hts.eof_notMem, ?_, fun earlier call answer later h => ?_,
    @Lexer.perform_of_none lexer .next, Lexer.next_after_eof, lexer.performAll_drain,
    lexer.drain_ended, hsource ▸ lexer.drain_length_le⟩
  · have htokens := (Lexer.ofBytes source).performAll_tokens calls
    rwa [show Token.all (Lexer.ofBytes source).rest = ts from hts.all_eq] at htokens
  · have hstart : ¬ (Lexer.ofBytes source).finished = true := Bool.false_ne_true
    rw [Lexer.performAll_none_iff h, or_iff_right hstart]

/-- A request that has gone past the end keeps the stream open, and a zero byte is no end. -/
theorem request_past_end :
    let source : Bytes := [53, 0, 32, 120]
    let lexer := ((Lexer.ofBytes source).performAll [.nextToken, .next, .nextToken, .nextToken]).2
    Splits source [.int "5", .illegal 0, .ident "x"] ∧ lexer.next.1 ≠ none ∧
      lexer.nextToken.1 = .eof ∧ lexer.nextToken.2.next.1 = some .eof ∧
      lexer.drain.1.length ≤ 5 := by
  intro source lexer
  have hts : Splits source [.int "5", .illegal 0, .ident "x"] :=
    (all_eq_iff_splits _ _).1 (by decide +kernel)
  have hopen : lexer.next.1 ≠ none := by decide +kernel
  have heof : lexer.nextToken.1 = .eof := by decide +kernel
  obtain ⟨_, _, _, _, _, hstream, _, _, hlength⟩ := mixed_calls_share_tokens hts
    [.nextToken, .next, .nextToken, .nextToken]
  exact ⟨hts, hopen, heof, hstream hopen heof, hlength⟩

end Monkey
