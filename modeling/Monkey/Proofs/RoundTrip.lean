import Monkey.Parser.Completeness
import Monkey.Proofs.TreeText
import Monkey.Proofs.ParserImage

/-!
# Reading back what was written

The canonical text of a well-formed program is accepted and is that program
again. Whatever the parser returns is well-formed, broken statements around it
or not, so that its text always leads back to it. A tree that is not well-formed
has a text as well, but no text leads to it.
-/

set_option autoImplicit false

namespace Monkey

theorem parser_ofText (text : String) :
    Parser.ofLexer (Lexer.ofText text) = Parser.ofTokens (Token.all (Bytes.ofText text)) := rfl

theorem ofBytes_text {program : Program} (h : program.WellFormed) :
    Program.ofBytes (Bytes.ofText program.text) = .ok program := by
  rw [Program.ofBytes, all_text h]
  exact parseProgram_of_derives (derivedFrom_tokens h)

theorem parse_of_parseProgram {parser : Parser} {program : Program}
    (h : parser.parseProgram = .ok program) :
    parser.parse.1 = program ∧ parser.parse.2.errors = [] := by
  simp only [Parser.parseProgram] at h
  split at h
  · next hempty =>
    cases h
    exact ⟨rfl, List.isEmpty_iff.1 hempty⟩
  · cases h

/-- The text of every tree that the parser returns, with or without errors, is
parsed without an error to the same tree. -/
theorem parse_text_parse (source : Bytes) :
    let program := (Parser.ofLexer (Lexer.ofBytes source)).parse.1
    let again := (Parser.ofLexer (Lexer.ofText program.text)).parse
    again.2.errors = [] ∧ again.1 = program ∧ again.1.text = program.text := by
  intro program again
  have hwell : program.WellFormed := parse_wellFormed (Lexer.ofBytes source)
  have hread := ofBytes_text hwell
  rw [Program.ofBytes, ← parser_ofText] at hread
  obtain ⟨htree, herrors⟩ := parse_of_parseProgram hread
  exact ⟨herrors, htree, congrArg Program.text htree⟩

theorem read_text {program : Program} (h : program.WellFormed) :
    (Parser.ofLexer (Lexer.ofText program.text)).parse.1 = program ∧
      (Parser.ofLexer (Lexer.ofText program.text)).parse.2.errors = [] := by
  have hread := ofBytes_text h
  rw [Program.ofBytes, ← parser_ofText] at hread
  exact parse_of_parseProgram hread

/-- The text of a tree, however the tree was built, is parsed without an error to
the same tree exactly if the tree is well-formed. Two well-formed trees with the
same text are the same. -/
theorem read_back_iff_wellFormed (program : Program) :
    (((Parser.ofLexer (Lexer.ofText program.text)).parse.1 = program ∧
      (Parser.ofLexer (Lexer.ofText program.text)).parse.2.errors = []) ↔ program.WellFormed) ∧
    ∀ other : Program, program.WellFormed → other.WellFormed → program.text = other.text →
      program = other := by
  refine ⟨⟨fun h => ?_, read_text⟩, fun other hprogram hother htext => ?_⟩
  · have hwell := parse_wellFormed (Lexer.ofText program.text)
    rwa [h.1] at hwell
  · calc
      program = (Parser.ofLexer (Lexer.ofText program.text)).parse.1 := (read_text hprogram).1.symm
      _ = (Parser.ofLexer (Lexer.ofText other.text)).parse.1 := by rw [htext]
      _ = other := (read_text hother).1

/-- Without their parentheses, the two trees would have the same text. -/
theorem grouped_differences_apart :
    let left : Program :=
      [.expr (.infixOp .minus (.infixOp .minus (.ident "a") (.ident "b")) (.ident "c"))]
    let right : Program :=
      [.expr (.infixOp .minus (.ident "a") (.infixOp .minus (.ident "b") (.ident "c")))]
    left.WellFormed ∧ right.WellFormed ∧ left ≠ right ∧ left.text ≠ right.text ∧
      (Parser.ofLexer (Lexer.ofText left.text)).parse.1 = left := by
  intro left right
  have hleft : left.WellFormed := by decide
  have hright : right.WellFormed := by decide
  have hne : left ≠ right := by simp [left, right]
  have htext : left.text ≠ right.text :=
    fun h => hne ((read_back_iff_wellFormed left).2 right hleft hright h)
  exact ⟨hleft, hright, hne, htext, ((read_back_iff_wellFormed left).1.2 hleft).1⟩

end Monkey
