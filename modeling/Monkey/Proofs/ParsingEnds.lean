import Mathlib.Data.List.Perm.Subperm
import Monkey.Parser
import Monkey.Proofs.DescentControl
import Monkey.Proofs.DescentLimit
import Monkey.Proofs.Tokenization

/-!
# What parsing comes to

Parsing by descent comes to an end on all tokens, and to a program. On the tokens of a
lexer it is the program of the machine, with the errors of the machine. So what is
known about the one holds of the other: errors account for the statements that were
given up, and nothing is left to be read afterwards.
-/

set_option autoImplicit false

namespace Monkey

section Tokens

variable {ts : List Token}

theorem read_done {limit : Nat} (hlimit : 2 * ts.length + 3 ≤ limit) :
    ∃ program stop notes, (TokenStream.ofList ts).read limit 0 = .done program stop notes ∧
      (TokenStream.ofList ts).Accounts 0 0 stop notes ∧ Note.Matched notes ∧
      TokenStream.ofList ts stop = .eof := by
  have hfinished : ((TokenStream.ofList ts).read limit 0).Finished 0 :=
    TokenStream.read_finished (fun _ => TokenStream.ofList_of_le) hlimit 0
  have haccounted := (Descent.readers_accounted (.ofList ts) limit).program [] 0
  have heof := Descent.program_atEof (.ofList ts) limit [] 0
  change Reading.Accounted _ _ _ _ ((TokenStream.ofList ts).read limit 0) at haccounted
  change Descent.AtEof _ ((TokenStream.ofList ts).read limit 0) at heof
  cases hread : (TokenStream.ofList ts).read limit 0 with
  | done program stop notes =>
    rw [hread] at haccounted heof
    exact ⟨program, stop, notes, rfl, haccounted.1, haccounted.2, heof⟩
  | broken stop notes =>
    rw [hread] at haccounted
    exact haccounted.1.elim
  | unfinished =>
    rw [hread] at hfinished
    exact hfinished.elim

def tokenPlaces (ts : List Token) : List Nat :=
  (List.range ts.length).filter fun place => TokenStream.ofList ts place ≠ .eof

theorem tokenPlaces_length (ts : List Token) :
    (tokenPlaces ts).length = (ts.filter fun t => t ≠ .eof).length := by
  have hmap : (List.range ts.length).map (TokenStream.ofList ts) = ts := by
    refine List.ext_getElem (by simp) fun place h h' => ?_
    rw [List.getElem_map, List.getElem_range, TokenStream.ofList_of_lt h']
  unfold tokenPlaces
  conv_rhs => rw [← hmap]
  rw [List.filter_map, List.length_map]
  rfl

theorem attempts_length_le {first begin last : Nat} {notes : List Note}
    (h : (TokenStream.ofList ts).Accounts first begin last notes) :
    (Note.attempts notes).length ≤ (ts.filter fun t => t ≠ .eof).length := by
  -- Attempts begin at different tokens.
  have hnodup : ((Note.attempts notes).map Prod.fst).Nodup :=
    List.pairwise_map.2 h.distinct
  have hsubset : (Note.attempts notes).map Prod.fst ⊆ tokenPlaces ts := by
    intro place hplace
    obtain ⟨a, ha, rfl⟩ := List.mem_map.1 hplace
    obtain ⟨_, _, heof⟩ := h.attempts a ha
    have hlt : a.1 < ts.length := by
      refine Nat.lt_of_not_le fun hle => heof (TokenStream.ofList_of_le hle)
    simp [tokenPlaces, hlt, heof]
  have hle := (List.subperm_of_subset hnodup hsubset).length_le
  rwa [List.length_map, tokenPlaces_length] at hle

theorem parse_eq_read (hts : Token.eof ∉ ts) {limit stop : Nat} {program : Program}
    {notes : List Note} (h : (TokenStream.ofList ts).read limit 0 = .done program stop notes) :
    (Parser.ofTokens ts).parse = (program, ⟨[], .idle, Note.parseErrors notes⟩) := by
  have hrun := (Course.ofList ts hts).read_eq h
  change Control.idle.run (ts ++ [.eof]) = _ at hrun
  simp [Parser.parse, Parser.ofTokens, hrun]

end Tokens

/-- Every attempt to read a statement that ends without one has exactly one error, which
is about the token it has stopped at or the one behind that. There are no other errors,
no more of them than tokens, and they are in the order of the tokens. -/
theorem errors_account (ts : List Token) (limit : Nat) (hlimit : 2 * ts.length + 3 ≤ limit) :
    ∃ program stop notes,
      (TokenStream.ofList ts).read limit 0 = .done program stop notes ∧
      Note.Matched notes ∧
      (Note.errors notes).length =
        ((Note.attempts notes).filter fun attempt => attempt.2.isNone).length ∧
      (Note.errors notes).length ≤ (ts.filter fun t => t ≠ .eof).length ∧
      ((Note.errors notes).Pairwise fun e f => e.1 ≤ f.1) ∧
      (∀ e ∈ Note.errors notes, e.2.Blames (TokenStream.ofList ts e.1)) ∧
      (.eof ∉ ts →
        (Parser.ofTokens ts).parse.1 = program ∧
        (Parser.ofTokens ts).parse.2.errors = (Note.errors notes).map Prod.snd ∧
        ((∃ accepted, (Parser.ofTokens ts).parseProgram = .ok accepted) ↔
          ∀ attempt ∈ Note.attempts notes, attempt.2.isSome)) := by
  obtain ⟨program, stop, notes, hread, haccounts, hmatched, _⟩ := read_done hlimit
  have hlength := hmatched.errors_length
  have hle : (Note.errors notes).length ≤ (ts.filter fun t => t ≠ .eof).length := by
    rw [hlength]
    exact Nat.le_trans (List.length_filter_le _ _) (attempts_length_le haccounts)
  refine ⟨program, stop, notes, hread, hmatched, hlength, hle, haccounts.ordered,
    fun e he => (haccounts.errors e he).2.2, fun hts => ?_⟩
  have hparse := parse_eq_read hts hread
  refine ⟨by rw [hparse], by rw [hparse]; rfl, ?_⟩
  have hnone : Note.errors notes = [] ↔ ∀ attempt ∈ Note.attempts notes, attempt.2.isSome := by
    rw [← List.length_eq_zero_iff, hlength, List.length_eq_zero_iff, List.filter_eq_nil_iff]
    simp [Option.isSome_iff_ne_none]
  rw [← hnone]
  cases herrors : Note.errors notes <;>
    simp [Parser.parseProgram, hparse, Note.parseErrors, herrors]

/-- Two statements that are given up, one of them in a block that is never closed. -/
theorem nested_errors_account :
    let ts : List Token := [.keyword .bind, .int "1", .semicolon, .keyword .fn, .lparen, .rparen,
      .lbrace, .keyword .bind, .ident "x", .semicolon, .ident "x"]
    let function : Stmt := .expr (.fn [] [.expr (.ident "x")])
    let notes : List Note := [.error 1 (.unexpected .ident .int), .attempt 0 0 none,
      .error 9 (.unexpected .assign .semicolon), .attempt 7 8 none,
      .attempt 10 10 (some (.expr (.ident "x"))), .attempt 3 11 (some function)]
    2 * ts.length + 3 ≤ 25 ∧ .eof ∉ ts ∧
    (TokenStream.ofList ts).read 25 0 = .done [function] 12 notes ∧ Note.Matched notes ∧
    (Parser.ofTokens ts).parse.1 = [function] ∧
    (Parser.ofTokens ts).parse.2.errors =
      [.unexpected .ident .int, .unexpected .assign .semicolon] ∧
    ¬∃ accepted, (Parser.ofTokens ts).parseProgram = .ok accepted := by
  intro ts function notes
  have hlimit : 2 * ts.length + 3 ≤ 25 := by decide
  have heof : .eof ∉ ts := by decide
  have hhere : (TokenStream.ofList ts).read 25 0 = .done [function] 12 notes := by rfl
  obtain ⟨program, stop, found, hread, hmatched, _, _, _, _, hparse⟩ := errors_account ts 25 hlimit
  rw [hhere] at hread
  cases hread
  obtain ⟨hprogram, herrors, haccepted⟩ := hparse heof
  refine ⟨hlimit, heof, hhere, hmatched, hprogram, herrors, fun h => ?_⟩
  exact nomatch haccepted.1 h (0, none) (by simp [notes])

/-- The tokens that a lexer delivers from its place on, one call after another. -/
def TokenStream.ofLexer (lexer : Lexer) : TokenStream := fun place =>
  (lexer.skip place).nextToken.1

namespace Lexer

theorem ofLexer_eq (lexer : Lexer) :
    TokenStream.ofLexer lexer = TokenStream.ofList (Token.all lexer.rest) := by
  funext place
  induction place generalizing lexer with
  | zero =>
    refine lexer.nextToken_eq.1.trans ?_
    cases Token.all lexer.rest <;> rfl
  | succ place ih =>
    change TokenStream.ofLexer lexer.nextToken.2 place = _
    rw [ih, lexer.nextToken_eq.2]
    cases Token.all lexer.rest <;> rfl

end Lexer

/-- Reading whatever a lexer has left comes to an end, with the program and the errors of the
parser, in front of the end of input, where the next token is no other. From there
nothing is read, and parsing once more finds neither statements nor errors. -/
theorem parsing_ends (source : Bytes) (skipped limit : Nat)
    (hlimit : 2 * (Token.all ((Lexer.ofBytes source).skip skipped).rest).length + 3 ≤ limit) :
    let lexer := (Lexer.ofBytes source).skip skipped
    let stream := TokenStream.ofLexer lexer
    let after := (Parser.ofLexer lexer).parse.2
    (∃ stop notes,
      stream.read limit 0 = .done (Parser.ofLexer lexer).parse.1 stop notes ∧
      after.errors = (Note.errors notes).map Prod.snd ∧
      stream stop = .eof ∧ stream (stop + 1) = .eof ∧
      stream.read limit stop = .done [] stop []) ∧
    after.parse = ([], after) ∧
    after.parseProgram = if after.errors.isEmpty then .ok [] else .error after.errors := by
  intro lexer stream after
  have hts : Token.eof ∉ Token.all lexer.rest := (Token.all_splits lexer.rest).eof_notMem
  have hstream : stream = .ofList (Token.all lexer.rest) := lexer.ofLexer_eq
  obtain ⟨program, stop, notes, hread, _, _, heof⟩ := read_done hlimit
  have hparse : (Parser.ofLexer lexer).parse = (program, ⟨[], .idle, Note.parseErrors notes⟩) :=
    parse_eq_read hts hread
  have hafter : after = ⟨[], .idle, Note.parseErrors notes⟩ := by
    simp only [after, hparse]
  have hagain : after.parse = ([], after) := by
    have hrun : Control.idle.run [.eof] = .quiet .idle := Control.run_single _ _
    simp [hafter, Parser.parse, hrun, Move.quiet]
  refine ⟨⟨stop, notes, ?_, ?_, ?_, ?_, ?_⟩, hagain, by rw [Parser.parseProgram, hagain]⟩
  · rw [hstream, hparse]
    exact hread
  · rw [hafter]
    rfl
  · rw [hstream]
    exact heof
  · rw [hstream]
    exact (Course.ofList _ hts).eof_succ stop heof
  · obtain ⟨limit, rfl⟩ : ∃ n, limit = n + 1 := ⟨limit - 1, by omega⟩
    rw [hstream]
    exact if_pos heof

/-- A lexer behind its second token: a statement is given up at either end of what it has left. -/
theorem skipped_parsing_ends :
    let source := Bytes.ofText "let x; fn() \x7b \x7d \x7d 1"
    let lexer := (Lexer.ofBytes source).skip 2
    let stream := TokenStream.ofLexer lexer
    let after := (Parser.ofLexer lexer).parse.2
    let errors : List ParseError := [.noExpression .semicolon, .noExpression .rbrace]
    2 * (Token.all lexer.rest).length + 3 ≤ 19 ∧
    (Parser.ofLexer lexer).parse.1 = [.expr (.fn [] []), .expr (.int 1)] ∧
    after.errors = errors ∧
    stream 8 = .eof ∧ stream 9 = .eof ∧ stream.read 19 8 = .done [] 8 [] ∧
    after.parse = ([], after) ∧ after.parseProgram = .error errors := by
  intro source lexer stream after errors
  have hlimit : 2 * (Token.all lexer.rest).length + 3 ≤ 19 := by decide +kernel
  obtain ⟨⟨stop, notes, hread, herrors, hstop, hnext, hagain⟩, hparse, hprogram⟩ :=
    parsing_ends source 2 19 hlimit
  have htokens : Token.all lexer.rest = [.semicolon, .keyword .fn, .lparen, .rparen, .lbrace,
      .rbrace, .rbrace, .int "1"] := by decide +kernel
  have hhere : stream.read 19 0 = .done [.expr (.fn [] []), .expr (.int 1)] 8
      [.error 0 (.noExpression .semicolon), .attempt 0 0 none,
        .attempt 1 5 (some (.expr (.fn [] []))), .error 6 (.noExpression .rbrace),
        .attempt 6 6 none, .attempt 7 7 (some (.expr (.int 1)))] := by
    rw [show stream = .ofList (Token.all lexer.rest) from lexer.ofLexer_eq, htokens]
    rfl
  have hresult := hhere.symm.trans hread
  rw [Reading.done.injEq] at hresult
  obtain ⟨hstatements, rfl, rfl⟩ := hresult
  have hfound : after.errors = errors := herrors
  rw [hfound] at hprogram
  exact ⟨hlimit, hstatements.symm, hfound, hstop, hnext, hagain, hparse, hprogram⟩

end Monkey
