import Sigil.Lexer.Lines

/-!
# Places of tokens

Which kinds of tokens a text has does not depend on the line and column it begins at.
-/

namespace Sigil

/-- Tokens of the same kind on the same line. -/
structure Token.Level (token token' : Token) : Prop where
  kind : token.kind = token'.kind
  line : token.span.line = token'.span.line

/-- Tokens that differ in their columns and lengths only. -/
abbrev SameLines : List Token → List Token → Prop := List.Forall₂ Token.Level

namespace Lexer

variable {lexer other : Lexer} {c : Char} {chars rest : List Char} {run : List (Token × Lexer)}

/-- Lexers that differ in their places only. -/
structure Alike (lexer other : Lexer) : Prop where
  chars : lexer.chars = other.chars
  lineStart : lexer.atLineStart = other.atLineStart
  mode : lexer.inDescription = other.inDescription

/-- Passing the same character keeps lexers alike. -/
theorem Alike.past (alike : Alike lexer other) : Alike (lexer.past c rest) (other.past c rest) := by
  unfold Lexer.past
  split
  · exact ⟨rfl, rfl, alike.mode⟩
  · exact ⟨rfl, alike.lineStart, alike.mode⟩

/-- Lexers that are alike collect the same characters. -/
theorem Alike.readWhile (p : Char → Bool) (chars : List Char) (alike : Alike lexer other) :
    (readWhile p chars lexer).1 = (Lexer.readWhile p chars other).1 ∧
      Alike (Lexer.readWhile p chars lexer).2 (Lexer.readWhile p chars other).2 := by
  induction chars generalizing lexer other with
  | nil => exact ⟨rfl, alike⟩
  | cons c chars ih =>
      unfold Lexer.readWhile
      by_cases passes : p c
      · obtain ⟨read, later⟩ := ih (@Alike.past lexer other c chars alike)
        simp only [passes, if_true]
        exact ⟨congrArg (c :: ·) read, later⟩
      · simpa [passes] using alike

/-- Lexers that are alike read the same digits. -/
theorem Alike.readDecimal (isFloat : Bool) (chars : List Char) (alike : Alike lexer other) :
    (readDecimal isFloat chars lexer).1 = (Lexer.readDecimal isFloat chars other).1 ∧
      (Lexer.readDecimal isFloat chars lexer).2.1 = (Lexer.readDecimal isFloat chars other).2.1 ∧
      Alike (Lexer.readDecimal isFloat chars lexer).2.2
        (Lexer.readDecimal isFloat chars other).2.2 := by
  induction chars generalizing lexer other isFloat with
  | nil => exact ⟨rfl, rfl, alike⟩
  | cons c chars ih =>
      unfold Lexer.readDecimal
      split_ifs
      · obtain ⟨read, float, later⟩ := ih isFloat alike.past
        exact ⟨congrArg (c :: ·) read, float, later⟩
      · obtain ⟨read, float, later⟩ := ih true alike.past
        exact ⟨congrArg (c :: ·) read, float, later⟩
      · exact ⟨rfl, rfl, alike⟩

/-- The same kind of token and lexers that are alike, or two errors. -/
def Matches : Except LexError (Token × Lexer) → Except LexError (Token × Lexer) → Prop
  | .ok read, .ok read' => read.1.kind = read'.1.kind ∧ Alike read.2 read'.2
  | .error _, .error _ => True
  | _, _ => False

/-- Lexers that are alike read matching numbers. -/
theorem Alike.readNumber {first : Char} {startCol startCol' : Nat} (alike : Alike lexer other) :
    Matches (readNumber first startCol lexer) (Lexer.readNumber first startCol' other) := by
  have peeked : other.peek = lexer.peek := by rw [peek, peek, alike.chars]
  unfold Lexer.readNumber
  rw [peeked, alike.chars]
  split
  · obtain ⟨digits, later⟩ := (@Alike.past lexer other 'x' other.chars.tail alike).readWhile
      Char.isHexDigit
      (lexer.past 'x' other.chars.tail).chars
    simp only [past_chars] at digits later ⊢
    rw [digits]
    split
    · trivial
    · split
      · exact ⟨rfl, later⟩
      · trivial
  · obtain ⟨digits, float, later⟩ := alike.readDecimal false other.chars
    simp only [digits, float]
    split
    · exact ⟨rfl, later⟩
    · split
      · exact ⟨rfl, later⟩
      · trivial

/-- The same text and lexers that are alike, or two errors. -/
def MatchesText : Except LexError (List Char × Lexer) → Except LexError (List Char × Lexer) → Prop
  | .ok read, .ok read' => read.1 = read'.1 ∧ Alike read.2 read'.2
  | .error _, .error _ => True
  | _, _ => False

/-- Matching texts match with a character in front. -/
theorem MatchesText.cons {r r' : Except LexError (List Char × Lexer)} (matched : MatchesText r r') :
    MatchesText (do let (s, lexer) ← r; .ok (c :: s, lexer))
      (do let (s, lexer) ← r'; .ok (c :: s, lexer)) := by
  rcases r with e | read <;> rcases r' with e' | read'
  · trivial
  · cases matched
  · cases matched
  · exact ⟨congrArg (c :: ·) matched.1, matched.2⟩

/-- Lexers that are alike read matching strings. -/
theorem Alike.readString {start start' : Span} (chars : List Char) (alike : Alike lexer other) :
    MatchesText (readString start chars lexer) (Lexer.readString start' chars other) := by
  fun_induction Lexer.readString start chars lexer generalizing other with
  | case1 => simp [Lexer.readString, MatchesText]
  | case2 => simpa [Lexer.readString, MatchesText] using alike.past
  | case3 => simp [Lexer.readString, MatchesText]
  | case4 c tail lexer _ _ escape =>
      rename_i ih
      simp only [Lexer.readString, escape]
      exact (ih alike.past.past).cons
  | case5 c tail lexer =>
      rename_i escape
      simp [Lexer.readString, escape, MatchesText]
  | case6 => simp [Lexer.readString, MatchesText]
  | case7 c tail lexer quote last slash line ih =>
      rw [Lexer.readString]
      · exact (ih alike.past).cons
      · exact quote
      · exact last
      · exact slash
      · exact line

/-- Lexers that are alike are alike after a word. -/
theorem Alike.afterWord {kind : TokenKind} {wasLineStart : Bool} (alike : Alike lexer other) :
    Alike (afterWord kind wasLineStart lexer) (Lexer.afterWord kind wasLineStart other) :=
  ⟨by simpa using alike.chars, by simpa using alike.lineStart, afterWord_mode alike.mode⟩

/-- Lexers that are alike read matching tokens from a character. -/
theorem Alike.charToken {here here' : Nat → Span} {wasLineStart : Bool}
    (alike : Alike lexer other) :
    Matches (charToken here wasLineStart c lexer) (Lexer.charToken here' wasLineStart c other) := by
  have quoted : Matches (quoteToken here lexer) (quoteToken here' other) := by
    unfold quoteToken
    rw [alike.mode, alike.chars]
    split
    · exact ⟨rfl, alike⟩
    · have matched : MatchesText _ _ := @Alike.readString lexer other (here 1)
        (here' 1) other.chars alike
      generalize Lexer.readString (here 1) other.chars lexer = r at matched ⊢
      generalize Lexer.readString (here' 1) other.chars other = r' at matched ⊢
      rcases r with e | read <;> rcases r' with e' | read'
      · trivial
      · cases matched
      · cases matched
      · exact ⟨congrArg (fun s => TokenKind.stringLit (String.ofList s)) matched.1, matched.2⟩
  have dashed : Matches (dashToken here lexer) (dashToken here' other) := by
    unfold dashToken
    rw [alike.chars]
    split
    next rest _ => exact ⟨rfl, @Alike.past lexer other '>' rest alike⟩
    · split
      · exact alike.readNumber
      · exact ⟨rfl, alike⟩
    · exact ⟨rfl, alike⟩
  unfold Lexer.charToken
  split
  · exact ⟨rfl, alike⟩
  · split
    · exact quoted
    · split
      · exact ⟨rfl, alike⟩
      · split_ifs
        · exact dashed
        · exact alike.readNumber
        · obtain ⟨word, later⟩ := alike.readWhile isIdentChar other.chars
          unfold readIdentifier
          rw [alike.chars]
          generalize Lexer.readWhile isIdentChar other.chars lexer = read at word later ⊢
          generalize Lexer.readWhile isIdentChar other.chars other = read' at word later ⊢
          obtain ⟨letters, l⟩ := read
          obtain ⟨letters', l'⟩ := read'
          obtain rfl : letters = letters' := word
          exact ⟨rfl, later.afterWord⟩
        · exact ⟨rfl, alike⟩

/-- Lexers that are alike open a line alike. -/
theorem Alike.opened (alike : Alike lexer other) :
    lexer.opened.1.map Token.kind = other.opened.1.map Token.kind ∧
      Alike lexer.opened.2 other.opened.2 := by
  obtain ⟨blanks, later⟩ := alike.readWhile (fun c => c == ' ' || c == '\t') other.chars
  unfold Lexer.opened readIndent
  rw [alike.lineStart, alike.chars]
  split
  · generalize Lexer.readWhile (fun c => c == ' ' || c == '\t') other.chars lexer =
      read at blanks later ⊢
    generalize Lexer.readWhile (fun c => c == ' ' || c == '\t') other.chars other =
      read' at blanks later ⊢
    obtain ⟨b, l⟩ := read
    obtain ⟨b', l'⟩ := read'
    obtain rfl : b = b' := blanks
    have same : l.chars = l'.chars := later.chars
    dsimp only [peek]
    rw [same]
    split
    · split
      · exact ⟨rfl, rfl, rfl, later.mode⟩
      · exact ⟨rfl, rfl, rfl, later.mode⟩
    · exact ⟨rfl, rfl, rfl, later.mode⟩
  · exact ⟨rfl, alike⟩

/-- Lexers that are alike end a line alike. -/
theorem Alike.endOfLine (alike : Alike lexer other) :
    Matches (.ok lexer.endOfLine) (.ok other.endOfLine) := by
  unfold Lexer.endOfLine
  rw [alike.chars]
  split
  · exact ⟨rfl, alike⟩
  · exact ⟨rfl, alike.past⟩

/-- Lexers that are alike take matching steps. -/
theorem Alike.step (alike : Alike lexer other) : Matches lexer.step other.step := by
  obtain ⟨begun, later⟩ := alike.opened
  unfold Lexer.step
  rw [nextToken_eq, nextToken_eq]
  generalize lexer.opened = opening at begun later ⊢
  generalize other.opened = opening' at begun later ⊢
  rcases opening with ⟨_ | token, indented⟩ <;> rcases opening' with ⟨_ | token', indented'⟩
  · have skipped : Alike indented.skipWhitespace indented'.skipWhitespace := by
      unfold skipWhitespace
      rw [later.chars]
      exact (later.readWhile _ _).2
    dsimp only
    generalize indented.skipWhitespace = s at skipped ⊢
    generalize indented'.skipWhitespace = s' at skipped ⊢
    rw [skipped.chars, alike.lineStart]
    split
    · exact skipped.endOfLine
    · exact ((skipped.past.readWhile _ _).2).endOfLine
    · exact skipped.past.charToken
  · cases begun
  · cases begun
  · exact ⟨Option.some.inj begun, later⟩

/-- The kinds of the tokens of a text do not depend on where it begins. -/
theorem Run.alike (alike : Alike lexer other) (runs : Run lexer run) :
    ∃ run', Run other run' ∧ run'.map (fun read => read.1.kind) = run.map fun read =>
      read.1.kind := by
  induction runs generalizing other with
  | last read ended =>
      have matched := alike.step
      rw [read] at matched
      cases read' : other.step with
      | error e => rw [read'] at matched; exact matched.elim
      | ok result =>
          rw [read'] at matched
          exact ⟨_, .last read' (matched.1.symm.trans ended), by simpa using matched.1.symm⟩
  | more read inside rest ih =>
      have matched := alike.step
      rw [read] at matched
      cases read' : other.step with
      | error e => rw [read'] at matched; exact matched.elim
      | ok result =>
          rw [read'] at matched
          obtain ⟨run', runs', kinds⟩ := ih matched.2
          refine ⟨_, .more read' (fun ended => inside (matched.1.trans ended)) runs', ?_⟩
          simpa [kinds] using matched.1.symm

end Lexer

end Sigil
