import Mathlib
import Monkey.Proofs.Conversation
import Monkey.Proofs.ParserImage
import Monkey.Proofs.PrintedText

/-!
# The framing of transcripts

Lines are cut at line feeds, and every reply is printed in whole lines, none of
which holds two `>` in a row. So a prompt in a transcript is never part of a
reply, and cutting the transcript at its prompts gives the replies back. What has
been written up to the end of a line does not depend on what comes after it.
-/

set_option autoImplicit false

namespace Monkey

/-! ### Lines -/

/-- The input cut at its line feeds. One carriage return in front of a line feed goes with
it, and what comes behind the last line feed is a line unless it is empty. -/
inductive Bytes.Divided : Bytes → List Bytes → Prop where
  | nothing : Divided [] []
  | rest (line : Bytes) (hne : line ≠ []) (h : 10 ∉ line) : Divided line [line]
  | ended (line input : Bytes) (lines : List Bytes) (h : 10 ∉ line)
      (hlast : line.getLast? ≠ some 13) (hrest : Divided input lines) :
      Divided (line ++ 10 :: input) (line :: lines)
  | returned (line input : Bytes) (lines : List Bytes) (h : 10 ∉ line)
      (hrest : Divided input lines) : Divided (line ++ 13 :: 10 :: input) (line :: lines)

namespace Bytes

theorem linesAfter_run {line : Bytes} (h : 10 ∉ line) (read rest : Bytes) :
    linesAfter read (line ++ rest) = linesAfter (line.reverse ++ read) rest := by
  induction line generalizing read with
  | nil => rfl
  | cons b line ih =>
    have hb : b ≠ 10 := fun hb => h (hb ▸ List.mem_cons_self)
    rw [List.cons_append, linesAfter, if_neg hb, ih fun hline => h (List.mem_cons_of_mem _ hline)]
    simp

theorem endedLine_eq {line : Bytes} (h : line.getLast? ≠ some 13) :
    endedLine line.reverse = line := by
  rw [← List.head?_reverse] at h
  unfold endedLine
  split
  · next read hread => exact absurd (by rw [hread]; rfl) h
  · exact List.reverse_reverse line

theorem Divided.lines_eq {input : Bytes} {lines : List Bytes} (h : Divided input lines) :
    input.lines = lines := by
  unfold Bytes.lines
  induction h with
  | nothing => rfl
  | rest line hne h =>
    have hrun := linesAfter_run h [] []
    rw [List.append_nil, List.append_nil] at hrun
    rw [hrun, linesAfter, if_neg (by simpa using hne), List.reverse_reverse]
  | ended line input lines h hlast _ ih =>
    rw [linesAfter_run h, List.append_nil, linesAfter, if_pos rfl, endedLine_eq hlast, ih]
  | returned line input lines h _ ih =>
    rw [linesAfter_run h, List.append_nil, linesAfter, if_neg (by decide), linesAfter, if_pos rfl,
      ih]
    simp [endedLine]

theorem divided_after {read : Bytes} (hread : 10 ∉ read) (input : Bytes) :
    Divided (read.reverse ++ input) (linesAfter read input) := by
  -- on what has not been read yet
  induction input generalizing read with
  | nil =>
    unfold linesAfter
    cases read with
    | nil => exact .nothing
    | cons b read =>
      rw [List.append_nil]
      exact .rest _ (by simp) fun h => hread (List.mem_reverse.1 h)
  | cons b input ih =>
    unfold linesAfter
    split
    · next hb =>
      subst hb
      have hrest : Divided input (linesAfter [] input) := ih (List.not_mem_nil)
      unfold endedLine
      split
      · next read =>
        rw [List.reverse_cons, List.append_assoc]
        exact .returned _ _ _
          (fun h => hread (List.mem_cons_of_mem _ (List.mem_reverse.1 h))) hrest
      · next hcarriage =>
        refine .ended _ _ _ (by simpa using hread) ?_ hrest
        rw [List.getLast?_reverse]
        cases read with
        | nil => exact fun h => nomatch h
        | cons c read =>
          rintro ⟨⟩
          exact hcarriage read rfl
    · next hb =>
      have hread : 10 ∉ b :: read := by simpa [eq_comm] using ⟨hb, hread⟩
      have hrest := ih hread
      rwa [List.reverse_cons, List.append_assoc] at hrest

theorem divided_iff (input : Bytes) (lines : List Bytes) :
    Divided input lines ↔ input.lines = lines :=
  ⟨Divided.lines_eq, fun h => h ▸ @divided_after [] List.not_mem_nil input⟩

theorem Divided.append {input more : Bytes} {lines others : List Bytes} (h : Divided input lines)
    (hclosed : input = [] ∨ input.getLast? = some 10) (hmore : Divided more others) :
    Divided (input ++ more) (lines ++ others) := by
  have hbehind : ∀ line {rest : Bytes}, line ++ 10 :: rest = [] ∨
      (line ++ 10 :: rest).getLast? = some 10 → rest = [] ∨ rest.getLast? = some 10 := by
    intro line rest hclosed
    cases rest with
    | nil => exact .inl rfl
    | cons b rest => simpa [List.getLast?_append, List.getLast?_cons] using hclosed
  induction h with
  | nothing => exact hmore
  | rest line hne h =>
    rcases hclosed with hnil | hlast
    · exact absurd hnil hne
    · exact absurd (List.mem_of_getLast? hlast) h
  | ended line input lines h hend _ ih =>
    rw [List.append_assoc]
    exact .ended line _ _ h hend (ih (hbehind line hclosed))
  | returned line input lines h _ ih =>
    rw [List.append_assoc]
    refine .returned line _ _ h (ih (hbehind (line ++ [13]) ?_))
    rwa [List.append_assoc]

end Bytes

/-! ### Replies -/

/-- For the line, the text is printed: lines ended by line feeds, with no other line feed
and no two `>` in a row in them. Each syntax error of the line has one of its own, set off by
a tab. If there are no such errors, there is one line at most, without a tab. -/
def PrintedFor (line : Bytes) (text : String) : Prop :=
  ∃ printed : List String,
    text = String.join (printed.map fun one => one ++ "\n") ∧
    (∀ one ∈ printed, '\n' ∉ one.toList ∧ ¬ ['>', '>'] <:+: one.toList) ∧
    match Program.ofBytes line with
    | .error errors => errors ≠ [] ∧ printed.length = errors.length ∧
        ∀ one ∈ printed, one.toList.head? = some '\t'
    | .ok _ => printed.length ≤ 1 ∧ ∀ one ∈ printed, one.toList.head? ≠ some '\t'

theorem Legible.one_line {text : String} (h : Legible text) :
    '\n' ∉ text.toList ∧ ¬ ['>', '>'] <:+: text.toList ∧ text.toList.head? ≠ some '\t' :=
  ⟨fun hmem => absurd (h.visible _ hmem) (by decide), h.apart,
    fun hhead => absurd (h.visible _ (List.mem_of_head? hhead)) (by decide)⟩

theorem Legible.set_off {text : String} (h : Legible text) :
    '\n' ∉ ("\t" ++ text).toList ∧ ¬ ['>', '>'] <:+: ("\t" ++ text).toList ∧
      ("\t" ++ text).toList.head? = some '\t' := by
  have htext : ("\t" ++ text).toList = ['\t'] ++ text.toList := by
    rw [String.toList_append]
    rfl
  rw [htext]
  refine ⟨?_, apart_append (by decide) h.apart (.inr h.head), rfl⟩
  simpa using h.one_line.1

theorem printedFor_errors {line : Bytes} {errors : List ParseError}
    (h : Program.ofBytes line = .error errors) :
    PrintedFor line (Reply.rejected errors).text := by
  obtain ⟨herrors, hne⟩ := Program.ofBytes_error h
  have hlegible : ∀ error ∈ errors, Legible error.message := by
    intro error herror
    rw [herrors] at herror
    exact ParseError.legible herror
  refine ⟨errors.map fun error => "\t" ++ error.message, ?_, ?_, ?_⟩
  · simp only [Reply.text, List.map_map]
    rfl
  · intro one hone
    obtain ⟨error, herror, rfl⟩ := List.mem_map.1 hone
    exact ⟨(hlegible error herror).set_off.1, (hlegible error herror).set_off.2.1⟩
  · rw [h]
    refine ⟨hne, List.length_map _, fun one hone => ?_⟩
    obtain ⟨error, herror, rfl⟩ := List.mem_map.1 hone
    exact (hlegible error herror).set_off.2.2

theorem printedFor_nothing {line : Bytes} {program : Program}
    (h : Program.ofBytes line = .ok program) : PrintedFor line "" := by
  refine ⟨[], rfl, fun _ h => (nomatch h), ?_⟩
  rw [h]
  exact ⟨Nat.zero_le 1, fun _ h => nomatch h⟩

theorem printedFor_legible {line : Bytes} {program : Program}
    (h : Program.ofBytes line = .ok program) {text : String} (htext : Legible text) :
    PrintedFor line (text ++ "\n") := by
  have hone : ∀ one ∈ [text], one = text := fun _ => List.mem_singleton.1
  refine ⟨[text], by simp [String.join_cons], fun one h => ?_, ?_⟩
  · rw [hone one h]
    exact ⟨htext.one_line.1, htext.one_line.2.1⟩
  · rw [h]
    refine ⟨Nat.le_refl 1, fun one h => ?_⟩
    rw [hone one h]
    exact htext.one_line.2.2

theorem PrintedFor.apart {line : Bytes} {text : String} (h : PrintedFor line text) :
    ¬ ['>', '>'] <:+: text.toList := by
  obtain ⟨printed, rfl, hprinted, hcount⟩ := h
  clear hcount
  induction printed with
  | nil => decide
  | cons one printed ih =>
    obtain ⟨hone, hrest⟩ := List.forall_mem_cons.1 hprinted
    have hline : ¬ ['>', '>'] <:+: (one ++ "\n").toList := by
      rw [String.toList_append]
      exact apart_append hone.2 (by decide) (.inr (by decide))
    rw [List.map_cons, String.join_cons, String.toList_append]
    refine apart_append hline (ih hrest) (.inl ?_)
    rw [String.toList_append]
    simp

section

variable {limit : Nat} {scope : ScopeId} {session later last : Session}

theorem names_ofBytes {line : Bytes} {program : Program} (h : Program.ofBytes line = .ok program) :
    Stmt.AllNames (fun name => isName name = true) program := by
  obtain ⟨rfl, _⟩ := Program.ofBytes_ok h
  exact Stmt.allNames_of_wellFormed _ (parse_wellFormed (Lexer.ofBytes line))

theorem Session.interpret_printed (h : session.scopes.Ordinary fun name => isName name = true)
    {line : Bytes} {reply : Reply}
    (hline : session.interpret limit line scope = some (reply, later)) :
    (later.scopes.Ordinary fun name => isName name = true) ∧ PrintedFor line reply.text := by
  unfold interpret at hline
  split at hline
  · next errors herrors =>
    cases hline
    exact ⟨h, printedFor_errors herrors⟩
  · next program hprogram =>
    obtain ⟨hlater, hvalue, herror⟩ := Session.evaluate_ordinary h (names_ofBytes hprogram) hline
    refine ⟨hlater, ?_⟩
    cases reply with
    | rejected errors =>
      unfold evaluate at hline
      split at hline <;> cases hline
    | failed error =>
      have hlegible : Legible (Value.error error).text :=
        .append (.of_plain (by decide)) (EvalError.legible (herror error rfl))
      exact printedFor_legible hprogram hlegible
    | finished value =>
      cases value with
      | none => exact printedFor_nothing hprogram
      | some v => exact printedFor_legible hprogram (Value.legible (hvalue v rfl))

theorem Session.Converses.printed {lines : List Bytes} {replies : List Reply}
    (h : session.Converses limit scope lines replies last)
    (hsession : session.scopes.Ordinary fun name => isName name = true) :
    ∀ pair ∈ lines.zip replies, PrintedFor pair.1 pair.2.text := by
  induction h with
  | done => exact fun _ h => nomatch h
  | turn line reply rest replies first next last hline _ ih =>
    obtain ⟨hnext, hprinted⟩ := Session.interpret_printed hsession hline
    exact List.forall_mem_cons.2 ⟨hprinted, ih hnext⟩

end

/-! ### Transcripts -/

namespace Transcript

/-- Cuts a text at its prompts. `read`, last to first, has been read since the last one. -/
def pieces (read : List Char) : List Char → List (List Char)
  | '>' :: '>' :: ' ' :: rest => read.reverse :: pieces [] rest
  | c :: rest => pieces (c :: read) rest
  | [] => [read.reverse]

theorem pieces_run {text : List Char} (h : ¬ ['>', '>'] <:+: text) (read rest : List Char) :
    pieces read (text ++ (prompt.toList ++ rest)) = (read.reverse ++ text) :: pieces [] rest := by
  have hprompt : prompt.toList = ['>', '>', ' '] := rfl
  rw [hprompt]
  induction text generalizing read with
  | nil => simp [pieces]
  | cons c text ih =>
    rw [List.cons_append, pieces]
    · rw [ih fun htext => h (htext.trans (List.suffix_cons c text).isInfix)]
      simp
    · intro later hc htext
      -- a prompt cannot begin with the last character of the text
      cases text with
      | nil => simp at htext
      | cons d text =>
        obtain rfl : d = '>' := (List.cons.inj htext).1
        exact h ⟨[], text, by rw [hc]; rfl⟩

theorem pieces_written {replies : List Reply}
    (h : ∀ reply ∈ replies, ¬ ['>', '>'] <:+: reply.text.toList) {text : List Char}
    (htext : ¬ ['>', '>'] <:+: text) :
    pieces [] (text ++ (written replies).toList) =
      text :: (replies.map fun reply => reply.text.toList) ++ [[]] := by
  induction replies generalizing text with
  | nil =>
    have hrun := pieces_run htext [] []
    rwa [List.append_nil] at hrun
  | cons reply replies ih =>
    obtain ⟨hreply, hrest⟩ := List.forall_mem_cons.1 h
    rw [written, String.toList_append, String.toList_append, List.append_assoc,
      pieces_run htext, ih hrest hreply]
    rfl

theorem written_append (replies others : List Reply) :
    ∃ tail, written (replies ++ others) = written replies ++ tail := by
  induction replies with
  | nil =>
    cases others with
    | nil => exact ⟨"", by simp [written]⟩
    | cons reply others => exact ⟨reply.text ++ written others, String.append_assoc⟩
  | cons reply replies ih =>
    obtain ⟨tail, htail⟩ := ih
    exact ⟨tail, by simp only [List.cons_append, written, htail, String.append_assoc]⟩

theorem ofLines_append {limit more : Nat} {scope : ScopeId} {first last : Session}
    {lines others : List Bytes} {replies : List Reply} {longer : Transcript}
    (h : first.Converses limit scope (lines.takeWhile Bytes.isText) replies last)
    (hlonger : ofLines more scope first (lines ++ others) = some longer) :
    ∃ tail, longer.output = written replies ++ tail := by
  obtain ⟨answers, other, hconverses, rfl⟩ := (ofLines_eq_some_iff longer).1 hlonger
  rw [List.takeWhile_append] at hconverses
  split at hconverses
  · next hall =>
    obtain ⟨front, back, middle, rfl, hfront, _⟩ := hconverses.of_append
    have htext : lines.takeWhile Bytes.isText = lines :=
      (List.takeWhile_prefix _).eq_of_length hall
    rw [htext] at h
    obtain ⟨rfl, _⟩ := h.unique hfront
    exact written_append replies back
  · obtain ⟨rfl, _⟩ := h.unique hconverses
    exact ⟨"", String.append_empty.symm⟩

end Transcript

theorem ordinary_root (kind : String → Prop) : Session.empty.root.2.scopes.Ordinary kind := by
  rintro i scope name v hscope hv
  rcases create_cases hscope with hold | ⟨_, rfl⟩
  · cases hold
  · cases hv

/-- If the lines of an input up to the first one that is no text come to an end, the
transcript consists of their replies with a prompt in front of each and one behind them, and
an error is reported exactly if there is a line that is no text. Each reply is printed as
whole lines, which no prompt occurs in, so cutting the transcript at its prompts gives the
replies. If the input ends with a line, the transcript of every longer input begins with that
of this one. -/
theorem transcript_framed {limit : Nat} {input : Bytes} {lines : List Bytes}
    {replies : List Reply} {last : Session} (hlines : Bytes.Divided input lines)
    (hreplies : Session.empty.root.2.Converses limit Session.empty.root.1
      (lines.takeWhile Bytes.isText) replies last) :
    Transcript.ofInput limit input =
      some ⟨Transcript.written replies,
        if lines.all Bytes.isText then none else some .notText⟩ ∧
    replies.length = (lines.takeWhile Bytes.isText).length ∧
    (∀ pair ∈ (lines.takeWhile Bytes.isText).zip replies, PrintedFor pair.1 pair.2.text) ∧
    (∀ reply ∈ replies, ¬ ['>', '>'] <:+: reply.text.toList) ∧
    Transcript.pieces [] (Transcript.written replies).toList =
      [] :: (replies.map fun reply => reply.text.toList) ++ [[]] ∧
    (input = [] ∨ input.getLast? = some 10 → ∀ (more : Bytes) (other : Nat) (longer : Transcript),
      Transcript.ofInput other (input ++ more) = some longer →
        ∃ tail, longer.output = Transcript.written replies ++ tail) := by
  have hprinted := hreplies.printed (ordinary_root _)
  have hlength := hreplies.length_eq
  have hapart : ∀ reply ∈ replies, ¬ ['>', '>'] <:+: reply.text.toList := by
    intro reply hreply
    obtain ⟨line, hpair⟩ : ∃ line, (line, reply) ∈ (lines.takeWhile Bytes.isText).zip replies := by
      obtain ⟨i, hi, rfl⟩ := List.getElem_of_mem hreply
      exact ⟨_, List.mem_iff_getElem.2 ⟨i, by simp [hlength, hlength ▸ hi], List.getElem_zip⟩⟩
    exact (hprinted _ hpair).apart
  refine ⟨?_, hlength, hprinted, hapart, ?_, ?_⟩
  · unfold Transcript.ofInput
    rw [hlines.lines_eq]
    exact (Transcript.ofLines_eq_some_iff _).2 ⟨replies, last, hreplies, rfl⟩
  · have hnothing : ¬ ['>', '>'] <:+: ([] : List Char) := by decide
    exact Transcript.pieces_written hapart hnothing
  · intro hclosed more other longer hlonger
    have hall : Bytes.Divided (input ++ more) (lines ++ more.lines) :=
      hlines.append hclosed ((Bytes.divided_iff more _).2 rfl)
    unfold Transcript.ofInput at hlonger
    rw [hall.lines_eq] at hlonger
    exact Transcript.ofLines_append hreplies hlonger

/-- One line ended by a carriage return and a line feed, one with a syntax error, and one
that is no text. -/
theorem broken_input_framed :
    let input : Bytes := [49, 13, 10, 41, 10, 255, 10]
    let lines : List Bytes := [[49], [41], [255]]
    let replies : List Reply := [.finished (some (.int 1)), .rejected [.noExpression .rparen]]
    let output : String := ">> 1\n>> \tno prefix parse function for RParen found\n>> "
    Bytes.Divided input lines ∧
    (∃ last, Session.empty.root.2.Converses 1 Session.empty.root.1
      (lines.takeWhile Bytes.isText) replies last) ∧
    Transcript.ofInput 1 input = some ⟨output, some .notText⟩ ∧
    PrintedFor [41] (Reply.rejected [.noExpression .rparen]).text ∧
    ∀ (more : Bytes) (longer : Transcript),
      Transcript.ofInput 2 (input ++ more) = some longer →
        ∃ tail, longer.output = output ++ tail := by
  intro input lines replies output
  have hlines : Bytes.Divided input lines :=
    .returned [49] _ _ (by decide) (.ended [41] _ _ (by decide) (by decide)
      (.ended [255] _ _ (by decide) (by decide) .nothing))
  have htext : lines.takeWhile Bytes.isText = [[49], [41]] := by cbv
  have hone : Session.empty.root.2.interpret 1 [49] Session.empty.root.1 =
      some (.finished (some (.int 1)), ⟨Session.empty.root.2.scopes, 1⟩) := by cbv
  have htwo : (Session.mk Session.empty.root.2.scopes 1).interpret 1 [41] Session.empty.root.1 =
      some (.rejected [.noExpression .rparen], ⟨Session.empty.root.2.scopes, 1⟩) := by cbv
  have hreplies : Session.empty.root.2.Converses 1 Session.empty.root.1
      (lines.takeWhile Bytes.isText) replies ⟨Session.empty.root.2.scopes, 1⟩ := by
    rw [htext]
    exact .turn _ _ _ _ _ _ _ hone (.turn _ _ _ _ _ _ _ htwo (.done _))
  have hwritten : Transcript.written replies = output := by decide
  obtain ⟨hinput, _, hprinted, _, _, hlonger⟩ := transcript_framed hlines hreplies
  rw [hwritten] at hinput hlonger
  refine ⟨hlines, ⟨_, hreplies⟩, ?_, ?_, ?_⟩
  · have hbroken : lines.all Bytes.isText = false := by cbv
    rw [hinput, hbroken]
    rfl
  · exact hprinted ([41], .rejected [.noExpression .rparen]) (by rw [htext]; simp [replies])
  · exact fun more longer h => hlonger (.inr rfl) more 2 longer h
end Monkey
