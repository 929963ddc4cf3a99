import Sigil.Lexer.Descriptions
import Sigil.Parser.Pins

/-!
# Tokens of a HASH line

Another value on the line of a hash changes the tokens of that line, and no others: the lexer
is where it was when it has read the line break.
-/

namespace Sigil

namespace Lexer

variable {lexer mid after : Lexer} {token : Token} {c : Char} {chars rest text : List Char}
  {steps : Nat}

section LineNumbers

/-- The line that the text ends on. -/
def lastLine (lexer : Lexer) : Nat := lexer.line + lexer.chars.count '\n'

/-- A character that is read is counted. -/
theorem lastLine_past (here : lexer.chars = c :: rest) :
    (lexer.past c rest).lastLine = lexer.lastLine := by
  unfold lastLine past
  rw [here]
  split
  next newline =>
    subst newline
    simp only [List.count_cons_self]
    omega
  next other => simp only [List.count_cons_of_ne other]

/-- So are the characters of a word. -/
theorem lastLine_readWhile {p : Char → Bool} (here : lexer.chars = chars) :
    (readWhile p chars lexer).2.lastLine = lexer.lastLine := by
  induction chars generalizing lexer with
  | nil => rfl
  | cons c chars ih =>
      unfold readWhile
      split
      · exact (ih (past_chars lexer c chars)).trans (lastLine_past here)
      · rfl

/-- The digits of a number. -/
theorem lastLine_readDecimal {isFloat : Bool} (here : lexer.chars = chars) :
    (readDecimal isFloat chars lexer).2.2.lastLine = lexer.lastLine := by
  induction chars generalizing lexer isFloat with
  | nil => rfl
  | cons c chars ih =>
      unfold readDecimal
      split_ifs
      · exact (ih (past_chars lexer c chars)).trans (lastLine_past here)
      · exact (ih (past_chars lexer c chars)).trans (lastLine_past here)
      · rfl

/-- A number of either kind. -/
theorem lastLine_readNumber {first : Char} {startCol : Nat}
    (read : readNumber first startCol lexer = .ok (token, after)) :
    after.lastLine = lexer.lastLine := by
  unfold readNumber at read
  dsimp only at read
  split at read
  next hex =>
    obtain ⟨tail, here⟩ : ∃ tail, lexer.chars = 'x' :: tail := by
      cases chars : lexer.chars with
      | nil => simp [peek, chars] at hex
      | cons c tail =>
          obtain rfl : c = 'x' := by simpa [peek, chars] using hex.2
          exact ⟨tail, rfl⟩
    have same : (readWhile Char.isHexDigit (lexer.past 'x' lexer.chars.tail).chars
        (lexer.past 'x' lexer.chars.tail)).2.lastLine = lexer.lastLine :=
      (lastLine_readWhile rfl).trans (lastLine_past (by rw [here, List.tail_cons]))
    split at read
    · cases read
    · split at read <;> cases read
      exact same
  next =>
    have same : (readDecimal false lexer.chars lexer).2.2.lastLine = lexer.lastLine :=
      lastLine_readDecimal rfl
    split at read
    · cases read
      exact same
    · split at read <;> cases read
      exact same

/-- The characters of a string literal. -/
theorem lastLine_readString {start : Span} {s : List Char} (here : lexer.chars = chars)
    (read : readString start chars lexer = .ok (s, after)) : after.lastLine = lexer.lastLine := by
  fun_induction readString start chars lexer generalizing s with
  | case1 | case3 | case5 | case6 => cases read
  | case2 rest lexer =>
      cases read
      exact lastLine_past here
  | case4 c tail lexer _ _ _ =>
      rename_i ih
      obtain ⟨⟨s', after'⟩, later, same⟩ := Flow.bind_eq_ok_iff.mp read
      cases same
      exact (ih (past_chars _ _ _) later).trans
        ((lastLine_past (past_chars _ _ _)).trans (lastLine_past here))
  | case7 c tail lexer _ _ _ _ ih =>
      obtain ⟨⟨s', after'⟩, later, same⟩ := Flow.bind_eq_ok_iff.mp read
      cases same
      exact (ih (past_chars _ _ _) later).trans (lastLine_past here)

/-- A word changes the mode only. -/
theorem lastLine_afterWord {kind : TokenKind} {wasLineStart : Bool} :
    (afterWord kind wasLineStart lexer).lastLine = lexer.lastLine := by
  unfold afterWord
  split <;> (try split) <;> rfl

/-- What follows the first character of a token. -/
theorem lastLine_charToken {here : Nat → Span} {wasLineStart : Bool}
    (read : charToken here wasLineStart c lexer = .ok (token, after)) :
      after.lastLine = lexer.lastLine := by
  unfold charToken at read
  split at read
  · cases read
    rfl
  split at read
  · unfold quoteToken at read
    split at read
    · cases read
      rfl
    · cases found : readString (here 1) lexer.chars lexer with
      | error e =>
          rw [found] at read
          cases read
      | ok result =>
          rw [found] at read
          cases read
          exact lastLine_readString rfl found
  split at read
  · cases read
    rfl
  split_ifs at read
  · unfold dashToken at read
    split at read
    next rest text =>
      cases read
      exact lastLine_past text
    next =>
      split at read
      · exact lastLine_readNumber read
      · cases read
        rfl
    next =>
      cases read
      rfl
  · exact lastLine_readNumber read
  · cases read
    exact lastLine_afterWord.trans (lastLine_readWhile rfl)
  · cases read
    rfl

/-- The indentation. -/
theorem lastLine_opened : lexer.opened.2.lastLine = lexer.lastLine := by
  have same : (readWhile (fun c => c == ' ' || c == '\t') lexer.chars lexer).2.lastLine =
    lexer.lastLine :=
    lastLine_readWhile rfl
  unfold opened
  split
  · unfold readIndent
    dsimp only
    split
    · split <;> exact same
    · exact same
  · rfl

/-- The line break. -/
theorem lastLine_endOfLine : lexer.endOfLine.2.lastLine = lexer.lastLine := by
  unfold endOfLine
  split
  · rfl
  next here => exact lastLine_past here

/-- A token leaves the line that the text ends on as it is. -/
theorem lastLine_step (read : lexer.step = .ok (token, after)) :
    after.lastLine = lexer.lastLine := by
  unfold step at read
  rw [nextToken_eq] at read
  have opening : lexer.opened.2.lastLine = lexer.lastLine := lastLine_opened
  generalize lexer.opened = opened at read opening
  rcases opened with ⟨_ | token', indented⟩
  · dsimp only at read opening
    have skipped : indented.skipWhitespace.lastLine = lexer.lastLine :=
      (lastLine_readWhile rfl).trans opening
    generalize indented.skipWhitespace = start at read skipped
    split at read
    · obtain ⟨rfl, rfl⟩ := Prod.mk.inj (Except.ok.inj read)
      exact lastLine_endOfLine.trans skipped
    next rest text =>
      have past : (start.pastComment rest).lastLine = start.lastLine :=
        (lastLine_readWhile (past_chars _ _ _)).trans (lastLine_past text)
      obtain ⟨rfl, rfl⟩ := Prod.mk.inj (Except.ok.inj read)
      exact lastLine_endOfLine.trans (past.trans skipped)
    next c rest _ text => exact (lastLine_charToken read).trans ((lastLine_past text).trans skipped)
  · cases read
    exact opening

/-- Without a line break the line stays. -/
theorem readWhile_line {p : Char → Bool} (stops : p '\n' = false) :
    (readWhile p chars lexer).2.line = lexer.line := by
  induction chars generalizing lexer with
  | nil => rfl
  | cons c chars ih =>
      unfold readWhile
      split
      next passes =>
        have other : c ≠ '\n' := by
          rintro rfl
          rw [stops] at passes
          cases passes
        exact ih.trans (by rw [past_eq other])
      · rfl

/-- The indentation stands on the line that it begins. -/
theorem opened_line : lexer.opened.2.line = lexer.line ∧
    ∀ token ∈ lexer.opened.1, token.span.line = lexer.line := by
  have same : (readWhile (fun c => c == ' ' || c == '\t') lexer.chars lexer).2.line = lexer.line :=
    readWhile_line (by decide)
  unfold opened
  split
  · unfold readIndent
    dsimp only
    split
    · split
      · exact ⟨same, fun token begun => Option.some.inj begun ▸ same⟩
      · exact ⟨same, fun _ begun => by cases begun⟩
    · exact ⟨same, fun _ begun => by cases begun⟩
  · exact ⟨rfl, fun _ begun => by cases begun⟩

/-- A number stands on the line that the lexer is on. -/
theorem readNumber_line {first : Char} {startCol : Nat}
    (read : readNumber first startCol lexer = .ok (token, after)) :
      token.span.line = lexer.line := by
  unfold readNumber at read
  dsimp only at read
  split at read
  · split at read
    · cases read
    · split at read <;> cases read
      rfl
  · split at read
    · cases read
      rfl
    · split at read <;> cases read
      rfl

/-- So does a token of any kind but a line break. -/
theorem charToken_line {here : Nat → Span} {wasLineStart : Bool} (inLine : c ≠ '\n')
    (places : ∀ len, (here len).line = lexer.line)
    (read : charToken here wasLineStart c lexer = .ok (token, after)) :
    token.span.line = lexer.line := by
  unfold charToken at read
  rw [if_neg inLine] at read
  split at read
  · unfold quoteToken at read
    split at read
    · cases read
      exact places _
    · split at read <;> cases read
      exact places _
  split at read
  · cases read
    exact places _
  split_ifs at read
  · unfold dashToken at read
    split at read
    · cases read
      exact places _
    · split at read
      · exact readNumber_line read
      · cases read
        exact places _
    · cases read
      exact places _
  · exact readNumber_line read
  · cases read
    exact places _
  · cases read
    exact places _

/-- A line break stands on the line that it ends. -/
theorem endOfLine_line : lexer.endOfLine.1.span.line = lexer.line := by
  unfold endOfLine
  split <;> rfl

/-- A token stands on the line that the lexer is on. -/
theorem step_line (read : lexer.step = .ok (token, after)) : token.span.line = lexer.line := by
  unfold step at read
  rw [nextToken_eq] at read
  obtain ⟨opening, begun⟩ := @opened_line lexer
  generalize lexer.opened = opened at read opening begun
  rcases opened with ⟨_ | token', indented⟩
  · dsimp only at read opening
    have skipped : indented.skipWhitespace.line = lexer.line :=
      (readWhile_line (by decide)).trans opening
    generalize indented.skipWhitespace = start at read skipped
    split at read
    · obtain ⟨rfl, rfl⟩ := Prod.mk.inj (Except.ok.inj read)
      exact endOfLine_line.trans skipped
    next rest text =>
      have past : (start.pastComment rest).line = start.line :=
        (readWhile_line (by decide)).trans (by rw [past_eq (by decide)])
      obtain ⟨rfl, rfl⟩ := Prod.mk.inj (Except.ok.inj read)
      exact endOfLine_line.trans (past.trans skipped)
    next c rest _ text =>
      by_cases inLine : c = '\n'
      · subst inLine
        cases read
        exact skipped
      · have same : (start.past c rest).line = start.line := by rw [past_eq inLine]
        exact (charToken_line inLine (fun _ => same.symm) read).trans (same.trans skipped)
  · cases read
    exact begun token rfl

/-- The tokens of a text that begins on the same line stand on the same lines. -/
theorem Run.level {other : Lexer} {run : List (Token × Lexer)} (alike : Alike lexer other)
    (line : lexer.line = other.line) (runs : Run lexer run) :
    ∃ run', Run other run' ∧ SameLines (run.map Prod.fst) (run'.map Prod.fst) := by
  have next {lexer other after : Lexer} {token : Token} (alike : Alike lexer other)
      (line : lexer.line = other.line) (read : lexer.step = .ok (token, after)) :
      ∃ token' after', other.step = .ok (token', after') ∧ token.Level token' ∧
        Alike after after' ∧ after.line = after'.line := by
    have matched := alike.step
    rw [read] at matched
    cases read' : other.step with
    | error e =>
        rw [read'] at matched
        exact matched.elim
    | ok result =>
        rw [read'] at matched
        refine ⟨result.1, result.2, rfl, ⟨matched.1, ?_⟩, matched.2, ?_⟩
        · rw [step_line read, step_line read', line]
        · have ends : after.line + after.chars.count '\n' = lexer.line + lexer.chars.count '\n' :=
            lastLine_step read
          have ends' : result.2.line + result.2.chars.count '\n' =
            other.line + other.chars.count '\n' := lastLine_step read'
          have left : after.chars = result.2.chars := matched.2.chars
          rw [← alike.chars, ← left, ← line] at ends'
          omega
  induction runs generalizing other with
  | last read ended =>
      obtain ⟨token', after', read', level, -⟩ := next alike line read
      exact ⟨_, .last read' (level.kind.symm.trans ended), .cons level .nil⟩
  | more read inside rest ih =>
      obtain ⟨token', after', read', level, alike', line'⟩ := next alike line read
      obtain ⟨run', runs', same⟩ := ih alike' line'
      exact ⟨_, .more read' (fun ended => inside (level.kind.trans ended)) runs', .cons level same⟩

end LineNumbers

section Blanks

/-- What is left of a text behind blanks and a comment. -/
def pastBlank (text : List Char) : List Char :=
  match text.dropWhile isSpace with
  | '#' :: rest => rest.dropWhile (· != '\n')
  | left => left

/-- Nothing but blanks and a comment. -/
def Quiet (text : List Char) : Prop :=
  ∀ c ∈ (text.dropWhile isSpace).head?, c = '#'

/-- Nothing is left of a line behind blanks and a comment. -/
theorem pastBlank_quiet (quiet : Quiet text) (line : '\n' ∉ text) :
    pastBlank (text ++ '\n' :: rest) = '\n' :: rest := by
  unfold Quiet at quiet
  unfold pastBlank
  rw [List.dropWhile_append]
  cases left : text.dropWhile isSpace with
  | nil => rfl
  | cons c comment =>
      rw [left] at quiet
      obtain rfl : c = '#' := quiet c rfl
      have inside : ∀ c ∈ comment, (c != '\n') = true := by
        intro c member
        rw [bne_iff_ne]
        rintro rfl
        refine line (List.dropWhile_subset isSpace ?_)
        rw [left]
        exact List.mem_cons_of_mem _ member
      exact (List.dropWhile_append_of_pos inside).trans (List.dropWhile_cons_of_neg (by decide))

/-- Blanks in front make no difference, and a comment none in front of blanks and a comment. -/
theorem pastBlank_append {kept : List Char} (quiet : Quiet text) (line : '\n' ∉ text)
    (keptLine : '\n' ∉ kept) (bare : '#' ∈ text → Quiet kept) :
    pastBlank (text ++ (kept ++ '\n' :: rest)) = pastBlank (kept ++ '\n' :: rest) := by
  cases left : text.dropWhile isSpace with
  | nil =>
      unfold pastBlank
      rw [List.dropWhile_append, left]
      rfl
  | cons c comment =>
      unfold Quiet at quiet
      rw [left] at quiet
      obtain rfl : c = '#' := quiet c rfl
      have inside : '#' ∈ text := List.dropWhile_subset isSpace
        (by rw [left]; exact List.mem_cons_self)
      have both : Quiet (text ++ kept) := by
        unfold Quiet
        rw [List.dropWhile_append, left]
        intro c member
        exact (Option.some.inj member).symm
      have noBreak : '\n' ∉ text ++ kept := by simp [line, keptLine]
      rw [← List.append_assoc, pastBlank_quiet both noBreak, pastBlank_quiet (bare inside) keptLine]

/-- The lexer behind blanks and a comment. -/
def pastBlanks (lexer : Lexer) : Lexer :=
  match lexer.skipWhitespace.chars with
  | '#' :: rest => lexer.skipWhitespace.pastComment rest
  | _ => lexer.skipWhitespace

/-- The lexer is where the text goes on. -/
theorem pastBlanks_chars : lexer.pastBlanks.chars = pastBlank lexer.chars := by
  unfold pastBlanks pastBlank
  rw [← skipWhitespace_chars]
  split
  next rest text => exact (readWhile_eq _ (past_chars _ _ _)).2
  next => rfl

/-- Blanks and a comment change nothing else. -/
theorem pastBlanks_state : lexer.pastBlanks.atLineStart = lexer.atLineStart ∧
    lexer.pastBlanks.inDescription = lexer.inDescription ∧
    lexer.pastBlanks.lastLine = lexer.lastLine := by
  have skipped : lexer.skipWhitespace.lastLine = lexer.lastLine := lastLine_readWhile rfl
  have state : lexer.skipWhitespace.atLineStart = lexer.atLineStart ∧
      lexer.skipWhitespace.inDescription = lexer.inDescription := readWhile_state (by decide) _ _
  unfold pastBlanks
  split
  next rest text =>
    obtain ⟨start, mode⟩ := readWhile_state (p := (· != '\n')) (by decide) rest
      (lexer.skipWhitespace.past '#' rest)
    refine ⟨start.trans ?_, mode.trans (past_inDescription.trans state.2), ?_⟩
    · rw [past_eq (by decide)]
      exact state.1
    · exact (lastLine_readWhile (past_chars _ _ _)).trans ((lastLine_past text).trans skipped)
  next => exact ⟨state.1, state.2, skipped⟩

/-- Inside a line there is no indentation. -/
theorem opened_inLine (inLine : lexer.atLineStart = false) : lexer.opened = (none, lexer) := by
  rw [opened, inLine, if_neg Bool.false_ne_true]

/-- The next token inside a line. -/
theorem step_inLine (inLine : lexer.atLineStart = false) : lexer.step =
    match lexer.skipWhitespace.chars with
    | [] => .ok lexer.skipWhitespace.endOfLine
    | '#' :: rest => .ok (lexer.skipWhitespace.pastComment rest).endOfLine
    | c :: rest => charToken
        (fun len => ⟨lexer.skipWhitespace.line, lexer.skipWhitespace.col, len⟩) false c
        (lexer.skipWhitespace.past c rest) := by
  have read : lexer.step = _ := nextToken_eq 0
  rw [opened_inLine inLine, inLine] at read
  exact read

/-- Inside a line the next token does not depend on blanks and a comment in front of it. -/
theorem step_pastBlanks (inLine : lexer.atLineStart = false) :
    lexer.pastBlanks.step = lexer.step := by
  have state : lexer.skipWhitespace.atLineStart = false :=
    (readWhile_state (by decide) _ _).1.trans inLine
  have again : lexer.skipWhitespace.skipWhitespace = lexer.skipWhitespace := by
    have stops := readWhile_stops (fun c => c == ' ' || c == '\t' || c == '\r') _ _
      (rfl : lexer.chars = _)
    unfold skipWhitespace
    generalize (readWhile (fun c => c == ' ' || c == '\t' || c == '\r') lexer.chars lexer).2 =
      start at stops ⊢
    cases left : start.chars with
    | nil => rfl
    | cons c rest =>
        rw [left] at stops
        rw [readWhile, if_neg (by simp [stops c rfl])]
  have start : lexer.pastBlanks.atLineStart = false := pastBlanks_state.1.trans inLine
  unfold pastBlanks at start ⊢
  split
  next rest text =>
    simp only [text] at start
    rw [step_inLine inLine, text]
    refine nextToken_endOfLine start (fun c member => ?_) 1
    simpa using readWhile_stops _ _ _ (past_chars _ _ _) c member
  next => rw [step_inLine state, step_inLine inLine, again]

end Blanks

section Lines

/-- What is read goes on with the run of what is left. -/
theorem Reads.runs {kinds : List TokenKind} {run : List (Token × Lexer)}
    (reads : Reads lexer kinds after)
    (runs : Run after run) : ∃ front, front.map (·.1.kind) = kinds ∧ Run lexer (front ++ run) := by
  induction reads with
  | nil => exact ⟨[], rfl, runs⟩
  | @cons _ _ _ token _ read more _ _ ih =>
      obtain ⟨front, spelled, later⟩ := ih runs
      exact ⟨(token, _) :: front, by rw [List.map_cons, spelled], .more (read 1) more later⟩

variable {run later words : List (Token × Lexer)} {last : Token × Lexer}
  {value kept behind : List Char}
  {line : Nat} {mode : Bool}

/-- A word that ends before the text does not depend on what is behind the text. -/
theorem readWhile_left_followed {p : Char → Bool} (some_ : (readWhile p chars lexer).2.chars ≠ [])
    (here : lexer.chars = chars) :
    (readWhile p (chars ++ text) (lexer.followed text)).2 =
      (readWhile p chars lexer).2.followed text := by
  induction chars generalizing lexer with
  | nil => exact absurd here some_
  | cons c chars ih =>
      rw [List.cons_append]
      unfold readWhile at some_ ⊢
      by_cases passes : p c
      · simp only [passes, if_true, past_followed] at some_ ⊢
        exact ih some_ (past_chars _ _ _)
      · simp only [passes, if_false, Bool.false_eq_true]

/-- A punctuation mark is neither a number nor a name. -/
theorem punctuation_not_value {kind : TokenKind} (mark : punctuation c = some kind) :
    isValue kind = false := by
  unfold punctuation at mark
  split at mark <;> cases mark <;> rfl

/-- A number or a name ends in front of a carriage return. -/
theorem charToken_value {here : Nat → Span} {wasLineStart : Bool} (breaks : Breaks text)
    (read : charToken here wasLineStart c lexer = .ok (token, after))
    (value : isValue token.kind = true) :
    charToken here wasLineStart c (lexer.followed text) = .ok (token, after.followed text) := by
  have same {r' : Except LexError (Token × Lexer)} (agrees : Agrees text (.ok (token, after)) r') :
      r' = .ok (token, after.followed text) := by
    cases r' with
    | error e => exact agrees.elim
    | ok read' => exact congrArg Except.ok agrees
  unfold charToken at read ⊢
  by_cases line : c = '\n'
  · rw [if_pos line] at read
    cases read
    cases value
  rw [if_neg line] at read ⊢
  by_cases quote : c = '"'
  · rw [if_pos quote] at read
    unfold quoteToken at read
    split at read
    · cases read
      cases value
    · split at read <;> cases read
      cases value
  rw [if_neg quote] at read ⊢
  cases mark : punctuation c with
  | some kind =>
      rw [mark] at read
      cases read
      exact absurd value (by rw [punctuation_not_value mark]; decide)
  | none =>
      rw [mark] at read
      dsimp only at read ⊢
      split_ifs at read ⊢
      · exact same (read ▸ dashToken_followed breaks here)
      · exact same (read ▸ readNumber_followed breaks c _ lexer)
      · rw [readIdentifier_followed breaks]
        cases read
        exact congrArg (fun left => Except.ok (_, left)) (afterWord_followed _ _)
      · cases read
        cases value

/-- The same for a token. -/
theorem step_value (breaks : Breaks text) (inLine : lexer.atLineStart = false)
    (read : lexer.step = .ok (token, after)) (value : isValue token.kind = true) :
    (lexer.followed text).step = .ok (token, after.followed text) := by
  have ended {end_ : Lexer}
      (same : (.ok end_.endOfLine : Except LexError (Token × Lexer)) = .ok (token, after)) :
        False := by
    have kind : isValue end_.endOfLine.1.kind = false := by
      unfold endOfLine
      split <;> rfl
    rw [Except.ok.inj same, value] at kind
    cases kind
  rw [step_inLine inLine] at read
  rw [step_inLine (show (lexer.followed text).atLineStart = false from inLine)]
  cases start : lexer.skipWhitespace.chars with
  | nil =>
      simp only [start] at read
      exact (ended read).elim
  | cons c rest =>
      have skipped : (lexer.followed text).skipWhitespace = lexer.skipWhitespace.followed text :=
        readWhile_left_followed (by
          change lexer.skipWhitespace.chars ≠ []
          simp [start]) rfl
      rw [skipped, followed_chars, start, List.cons_append]
      by_cases comment : c = '#'
      · subst comment
        simp only [start] at read
        exact (ended read).elim
      · rw [start] at read
        split at read
        next same => cases same
        next same => exact absurd (List.cons.inj same).1 comment
        next same =>
          obtain ⟨rfl, rfl⟩ := List.cons.inj same
          rw [past_followed]
          exact charToken_value breaks read value

/-- A number or a name keeps the mode. -/
theorem inDescription_afterWord {kind : TokenKind} {wasLineStart : Bool}
    (value : isValue kind = true) :
    (afterWord kind wasLineStart lexer).inDescription = lexer.inDescription := by
  unfold isValue at value
  split at value
  · rfl
  · rfl
  · cases value

/-- In front of a carriage return numbers and names are read as in front of the end of the text. -/
theorem Run.followed_values (breaks : Breaks text) (inLine : lexer.atLineStart = false)
    (runs : Run lexer (words ++ [last])) (values : ∀ read ∈ words, isValue read.1.kind = true) :
    ∃ mid : Lexer, mid.atLineStart = false ∧ mid.inDescription = lexer.inDescription ∧
      mid.lastLine = lexer.lastLine ∧ PartLeft lexer.chars mid.chars ∧ mid.step = .ok last ∧
      ∀ run, Run (lexer.followed text) run ↔
        ∃ later, run = words.map (withText text) ++ later ∧ Run (mid.followed text) later := by
  induction words generalizing lexer with
  | nil =>
      refine ⟨lexer, inLine, rfl, rfl, .refl, ?_, fun run => by simp⟩
      cases runs with
      | last read ended => exact read
      | more read inside rest => cases rest
  | cons word words ih =>
      obtain ⟨value, others⟩ := List.forall_mem_cons.mp values
      generalize whole : word :: words ++ [last] = all at runs
      cases runs with
      | last read ended =>
          rw [List.cons_append] at whole
          simp at whole
      | @more _ after token _ read inside rest =>
          obtain ⟨rfl, rfl⟩ := List.cons.inj whole
          dsimp only at value
          obtain ⟨start, mode, left⟩ := step_state read
          have start : after.atLineStart = false := by
            rw [start, decide_eq_false]
            intro same
            rw [same] at value
            cases value
          have mode : after.inDescription = lexer.inDescription := by
            rw [mode, inDescription_afterWord value]
          have part : PartLeft lexer.chars after.chars := by
            unfold TokenLeft at left
            split at left
            next same => simp [same, isValue] at value
            next same => simp [same, isValue] at value
            next => exact left.1
          obtain ⟨mid, start', mode', line, part', ended, runs⟩ := ih start rest others
          refine ⟨mid, start', mode'.trans mode, line.trans (lastLine_step read),
            part.trans part', ended,
            fun run => ?_⟩
          have first : (lexer.followed text).step = _ := step_value breaks inLine read value
          constructor
          · intro whole
            cases whole with
            | last read' stops =>
                rw [first] at read'
                cases read'
                rw [stops] at value
                cases value
            | more read' inside' rest' =>
                rw [first] at read'
                cases read'
                obtain ⟨later, rfl, behind⟩ := (runs _).mp rest'
                exact ⟨later, rfl, behind⟩
          · rintro ⟨later, rfl, behind⟩
            exact .more first inside ((runs _).mpr ⟨later, rfl, behind⟩)

/-- A run depends on its first token. -/
theorem Run.congr_step {other : Lexer} (same : lexer.step = other.step) (runs : Run lexer run) :
    Run other run := by
  cases runs with
  | last read ended => exact .last (same.symm.trans read) ended
  | more read inside rest => exact .more (same.symm.trans read) inside rest

/-- In front of the end of a text there is nothing but blanks and a comment. -/
theorem quiet_of_step (inLine : lexer.atLineStart = false) (read : lexer.step = .ok last)
    (ended : last.1.kind = .eof) : Quiet lexer.chars := by
  intro c member
  rw [← skipWhitespace_chars] at member
  rw [step_inLine inLine] at read
  by_contra other
  cases start : lexer.skipWhitespace.chars with
  | nil =>
      rw [start] at member
      cases member
  | cons d rest =>
      rw [start] at member read
      obtain rfl := Option.some.inj member
      split at read
      next same => cases same
      next same => exact other (List.cons.inj same).1
      next => exact (charToken_kind read).1 ended

/-- The tokens of a line of numbers and names, and where the lexer is behind them. -/
theorem run_values (runs : Run ⟨' ' :: value, line, 5, false, false⟩ (words ++ [last]))
    (values : ∀ read ∈ words, isValue read.1.kind = true) (inLine : '\n' ∉ value)
    (keptLine : '\n' ∉ kept) (begins : ∀ c ∈ kept.head?, c = '\r')
      (bare : '#' ∈ value → Quiet kept) :
    ∃ start : Lexer, start.chars = pastBlank (kept ++ '\n' :: behind) ∧ start.atLineStart = false ∧
      start.inDescription = false ∧ start.lastLine = line + (kept ++ '\n' :: behind).count '\n' ∧
      ∀ run, Run ⟨' ' :: (value ++ (kept ++ '\n' :: behind)), line, 5, false, false⟩ run ↔
        ∃ later, run = words.map (withText (kept ++ '\n' :: behind)) ++ later ∧
          Run start later := by
  have breaks : Breaks (kept ++ '\n' :: behind) := by
    intro c member
    cases kept with
    | nil => exact .inl (Option.some.inj member).symm
    | cons d rest => exact .inr (begins c member)
  obtain ⟨mid, start, mode, row, ⟨used, parts, _⟩, read, split⟩ :=
    runs.followed_values breaks rfl values
  have ended : last.1.kind = .eof := by
    obtain ⟨_, last', same, ended⟩ := runs.snoc
    obtain ⟨-, same⟩ := List.append_inj' same rfl
    rw [(List.cons.inj same).1, ended]
  have whole : ' ' :: value = used ++ mid.chars := parts
  have inside : ∀ c, c ∈ mid.chars → c ∈ ' ' :: value := fun c member => by
    rw [whole]
    exact List.mem_append_right _ member
  have line' : '\n' ∉ mid.chars := fun member => by simpa [inLine] using inside _ member
  have left : pastBlank (mid.chars ++ (kept ++ '\n' :: behind)) =
    pastBlank (kept ++ '\n' :: behind) :=
    pastBlank_append (quiet_of_step start read ended) line' keptLine fun member =>
      bare (by simpa using inside _ member)
  obtain ⟨start', mode', row'⟩ := @pastBlanks_state (mid.followed (kept ++ '\n' :: behind))
  have number : mid.line = line := by
    have same : mid.line + mid.chars.count '\n' = line + (' ' :: value).count '\n' := row
    rw [List.count_eq_zero.mpr line', List.count_eq_zero.mpr (by simpa using inLine)] at same
    exact same
  refine ⟨(mid.followed (kept ++ '\n' :: behind)).pastBlanks, pastBlanks_chars.trans left,
    start'.trans start,
    mode'.trans mode, row'.trans ?_, fun run => ?_⟩
  · unfold lastLine
    rw [followed_line, followed_chars, number, List.count_append, List.count_eq_zero.mpr line',
      Nat.zero_add]
  · have same := @step_pastBlanks (mid.followed (kept ++ '\n' :: behind)) start
    refine (split run).trans (exists_congr fun later => and_congr_right fun _ => ?_)
    exact ⟨.congr_step same.symm, .congr_step same⟩

/-- A hash is read on a line of its own. -/
theorem run_pin {hash : String} (pin : IsPin hash) : ∃ words last,
    Run ⟨' ' :: hash.toList, line, 5, false, false⟩ (words ++ [last]) ∧
      words.map (·.1.kind) = pinKinds hash.toList := by
  obtain ⟨k, ks, kinds⟩ := List.exists_cons_of_ne_nil (pinKinds_ne_nil pin)
  have scanned : Scans false hash.toList (pinKinds hash.toList) EndsPin := scans_pin pin
  rw [kinds] at scanned ⊢
  have apart : EndsPin [] := by
    constructor <;> intro c member <;> cases member
  obtain ⟨after, reads, left, start, -⟩ :=
    scanned.space ⟨' ' :: hash.toList, line, 5, false, false⟩ []
    (by simp) rfl rfl apart
  obtain ⟨last, read, ended⟩ : ∃ last, after.step = .ok last ∧ last.1.kind = .eof := by
    obtain ⟨token, eof, ended, read⟩ := nextToken_end left
    exact ⟨(token, eof), read 1, ended⟩
  obtain ⟨words, spelled, runs⟩ := reads.runs (.last read ended)
  exact ⟨words, last, runs, spelled⟩

/-- The word HASH at the start of a line. -/
theorem step_hash {mode : Bool} : (⟨"HASH ".toList ++ text, line, 1, true, mode⟩ : Lexer).step =
    .ok (⟨.keyword .hash, ⟨line, 1, 4⟩⟩, ⟨' ' :: text, line, 5, false, false⟩) := by
  have begins : step ⟨'H' :: ("ASH".toList ++ ' ' :: text), line, 1, true, mode⟩ =
    charToken _ _ _ _ :=
    nextToken_solid rfl (by unfold Solid; decide) 1
  have word : keywordOrIdent (String.ofList ('H' :: "ASH".toList)) = .keyword .hash := by decide
  have reads : readIdentifier 'H' ⟨"ASH".toList ++ ' ' :: text, line, 2, false, mode⟩ =
      (String.ofList ('H' :: "ASH".toList), ⟨' ' :: text, line, 5, false, mode⟩) := rfl
  refine begins.trans ?_
  change charToken _ _ 'H' ⟨"ASH".toList ++ ' ' :: text, line, 2, false, mode⟩ = _
  rw [charToken, if_neg (by decide), if_neg (by decide), show punctuation 'H' = none from rfl]
  simp only [reads, word]
  rfl

/-- The tokens of a text, the line break behind it, and the tokens of what follows. -/
theorem tokens_lines (runs : Run (lexer.followed ('\n' :: rest)) run) : ∃ front newline number mode,
    newline.kind = .newline ∧ ∀ text tokens,
      (∃ run, Run (lexer.followed ('\n' :: text)) run ∧ run.map Prod.fst = tokens) ↔
        ∃ later, Run ⟨text, number, 1, true, mode⟩ later ∧ tokens =
          front ++ newline :: later.map Prod.fst := by
  obtain ⟨whole, alone⟩ := runs.of_followed
  obtain ⟨front, last, rfl, -⟩ := alone.snoc
  refine ⟨front.map Prod.fst, (lineBreak rest last).1, last.2.line + 1, last.2.inDescription,
    rfl, fun text tokens => ?_⟩
  have spelled (later : List (Token × Lexer)) :
      (front.map (withText ('\n' :: text)) ++ lineBreak text last :: later).map Prod.fst =
        front.map Prod.fst ++ (lineBreak rest last).1 :: later.map Prod.fst := by
    simp [withText, lineBreak, Function.comp_def]
  constructor
  · rintro ⟨run, runs, rfl⟩
    obtain ⟨later, behind, rfl⟩ := alone.followed_iff.mp runs
    rw [lineBreak_state alone] at behind
    exact ⟨later, behind, spelled later⟩
  · rintro ⟨later, behind, rfl⟩
    rw [← lineBreak_state alone] at behind
    exact ⟨_, alone.followed_iff.mpr ⟨later, behind, rfl⟩, spelled later⟩

end Lines

end Lexer

section Rewriting

open Lexer

variable {before value kept behind : List Char} {hash source source' : String}
  {front words rest : List Token} {mark eof eof' : Token}

/-- A HASH line with nothing but its value in front of a carriage return: with another hash there
the tokens behind the value are the same, in other columns. -/
theorem lex_rewritten
    (text : source.toList = before ++ '\n' ::
      ("HASH ".toList ++ (value ++ (kept ++ '\n' :: behind))))
    (text' : source'.toList =
      before ++ '\n' :: ("HASH ".toList ++ (hash.toList ++ (kept ++ '\n' :: behind))))
    (inLine : '\n' ∉ value) (keptLine : '\n' ∉ kept) (begins : ∀ c ∈ kept.head?, c = '\r')
    (bare : '#' ∈ value → Quiet kept) (pin : IsPin hash)
    (values : mark.kind = .keyword .hash → ∀ token ∈ words, isValue token.kind = true)
    (lines : lex (String.ofList (before ++ ['\n'])) = .ok (front ++ [eof]))
    (alone : lex (String.ofList (before ++ '\n' :: ("HASH ".toList ++ value))) =
      .ok (front ++ mark :: (words ++ [eof'])))
    (lexed : lex source = .ok (front ++ mark :: (words ++ rest))) :
    mark.kind = .keyword .hash ∧ (∀ last ∈ front.getLast?, last.kind = .newline) ∧
      ∃ words' rest', words'.map Token.kind = pinKinds hash.toList ∧ SameLines rest rest' ∧
        lex source' = .ok (front ++ mark :: (words' ++ rest')) := by
  have starts (text : List Char) (source : String) (same : source.toList = before ++ '\n' :: text) :
      Lexer.new source = ({ chars := unmarked before } : Lexer).followed ('\n' :: text) := by
    rw [new_eq, same, unmarked_append (by simp)]
    rfl
  obtain ⟨run, runs, spelled⟩ := lex_eq_ok_iff.mp lexed
  rw [starts _ source text] at runs
  obtain ⟨head, newline, number, mode, isBreak, split⟩ := tokens_lines runs
  have hashLine {text : List Char} {later : List (Token × Lexer)}
      (runs : Run ⟨"HASH ".toList ++ text, number, 1, true, mode⟩ later) :
      ∃ inside, Run ⟨' ' :: text, number, 5, false, false⟩ inside ∧
        later = (⟨.keyword .hash, ⟨number, 1, 4⟩⟩, ⟨' ' :: text, number, 5, false, false⟩) ::
          inside := by
    cases runs with
    | last read ended =>
        rw [step_hash] at read
        cases read
        cases ended
    | more read _ inside =>
        rw [step_hash] at read
        obtain ⟨rfl, rfl⟩ := Prod.mk.inj (Except.ok.inj read)
        exact ⟨_, inside, rfl⟩
  -- the tokens in front of the line
  obtain ⟨run₀, runs₀, spelled₀⟩ := lex_eq_ok_iff.mp lines
  rw [starts [] _ String.toList_ofList] at runs₀
  obtain ⟨later₀, ended, same₀⟩ := (split [] _).mp ⟨run₀, runs₀, spelled₀⟩
  obtain rfl := ended.unique (.last rfl rfl)
  obtain ⟨rfl, -⟩ : front = head ++ [newline] ∧ _ :=
    List.append_inj' (same₀.trans (List.append_cons ..)) rfl
  have behindFront {tokens : List Token} {later : List (Token × Lexer)}
      (same : head ++ [newline] ++ tokens = head ++ newline :: later.map Prod.fst) :
      tokens = later.map Prod.fst := by
    rw [List.append_assoc] at same
    exact (List.cons.inj (List.append_cancel_left same)).2
  -- the tokens of the line alone
  obtain ⟨run₁, runs₁, spelled₁⟩ := lex_eq_ok_iff.mp alone
  rw [starts _ _ String.toList_ofList] at runs₁
  obtain ⟨later₁, hashed₁, same₁⟩ := (split _ _).mp ⟨run₁, runs₁, spelled₁⟩
  obtain ⟨inside₁, valued₁, rfl⟩ := hashLine hashed₁
  obtain ⟨rfl, parts₁⟩ := List.cons.inj (behindFront same₁)
  obtain ⟨read, last, rfl, -⟩ := valued₁.snoc
  rw [List.map_append] at parts₁
  obtain ⟨rfl, -⟩ := List.append_inj' parts₁ rfl
  have values₁ : ∀ token ∈ read, isValue token.1.kind = true := fun token member =>
    values rfl token.1 (List.mem_map_of_mem member)
  -- and with what is behind it
  obtain ⟨later₂, hashed₂, same₂⟩ := (split _ _).mp ⟨run, runs, spelled⟩
  obtain ⟨inside₂, valued₂, rfl⟩ := hashLine hashed₂
  obtain ⟨-, parts₂⟩ := List.cons.inj (behindFront same₂)
  obtain ⟨start, left, start_, mode_, row, whole⟩ :=
    @run_values _ _ value kept behind _ valued₁ values₁ inLine keptLine begins bare
  obtain ⟨later, rfl, goesOn⟩ := (whole _).mp valued₂
  obtain rfl : rest = later.map Prod.fst := by
    have same : read.map Prod.fst ++ rest = read.map Prod.fst ++ later.map Prod.fst := by
      rw [parts₂, List.map_append, List.map_map]
      rfl
    exact List.append_cancel_left same
  -- the line with the other hash
  obtain ⟨read', last', runs', kinds⟩ := @run_pin number hash pin
  have values' : ∀ token ∈ read', isValue token.1.kind = true := fun token member =>
    value_of_pinKinds _ (kinds ▸ List.mem_map_of_mem member)
  have noComment : '#' ∈ hash.toList → Quiet kept := fun member =>
    absurd (List.all_eq_true.mp pin.2 _ member) (by decide)
  obtain ⟨start', left', start_', mode_', row', whole'⟩ :=
    @run_values _ _ hash.toList kept behind _ runs' values'
    (not_newline_of_all pin.2 (by decide)) keptLine begins noComment
  have alike : Alike start start' :=
    ⟨left.trans left'.symm, start_.trans start_'.symm, mode_.trans mode_'.symm⟩
  have level : start.line = start'.line := by
    have same := row.trans row'.symm
    unfold lastLine at same
    rw [alike.chars] at same
    exact Nat.add_right_cancel same
  obtain ⟨later', goesOn', same⟩ := goesOn.level alike level
  refine ⟨rfl, by simpa using isBreak, read'.map Prod.fst, later'.map Prod.fst,
    by rw [List.map_map]; exact kinds, same, ?_⟩
  rw [lex_eq_ok_iff, starts _ source' text', List.append_assoc]
  have line' := (whole' _).mpr ⟨later', rfl, goesOn'⟩
  refine (split _ _).mpr ⟨_, .more step_hash (by simp) line', ?_⟩
  simp [withText, Function.comp_def]

end Rewriting

end Sigil
