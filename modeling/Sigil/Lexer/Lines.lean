import Sigil.Lexer.Text

/-!
# Line breaks

The tokens of a text up to a line break do not depend on what stands behind it.
-/

namespace Sigil

namespace Lexer

variable {lexer mid after : Lexer} {token : Token} {c : Char} {chars rest text : List Char}
  {steps steps' : Nat}

/-- The lexer with more text behind what it reads. -/
def followed (lexer : Lexer) (text : List Char) : Lexer :=
    { lexer with chars := lexer.chars ++ text }

section Fields

/-- The text is appended to what is left to read. -/
@[simp] theorem followed_chars : (lexer.followed text).chars = lexer.chars ++ text := rfl

/-- A text behind the line leaves the line number. -/
@[simp] theorem followed_line : (lexer.followed text).line = lexer.line := rfl

/-- A text behind the line leaves the column. -/
@[simp] theorem followed_col : (lexer.followed text).col = lexer.col := rfl

/-- A text behind the line does not begin one. -/
@[simp] theorem followed_atLineStart : (lexer.followed text).atLineStart = lexer.atLineStart := rfl

/-- A text behind the line leaves the mode. -/
@[simp] theorem followed_inDescription :
    (lexer.followed text).inDescription = lexer.inDescription := rfl

/-- Passing a character in front of the text leaves the text in place. -/
theorem past_followed : (lexer.followed text).past c (rest ++ text) =
    (lexer.past c rest).followed text := by
  unfold past
  split <;> rfl

/-- The lexer peeks at the first character left. -/
theorem peek_eq_some_iff {c : Char} : lexer.peek = some c ↔ ∃ tail, lexer.chars = c :: tail := by
  obtain ⟨chars, _, _, _, _⟩ := lexer
  cases chars <;> simp [peek]

end Fields

section Pieces

/-! What the parts of the lexer make of a text in front of a line break or a carriage return. -/

/-- Text that begins with a line break or a carriage return. -/
def Breaks (text : List Char) : Prop := ∀ c ∈ text.head?, c = '\n' ∨ c = '\r'

/-- A line break breaks the line. -/
theorem breaks_newline : Breaks ('\n' :: rest) := by
  simp [Breaks]

/-- A test that fails on both breaking characters fails on a text that breaks the line. -/
theorem Breaks.stops {p : Char → Bool} (breaks : Breaks text) (newline : p '\n' = false)
    (carriage : p '\r' = false) : ∀ c ∈ text.head?, p c = false := by
  intro c member
  rcases breaks c member with rfl | rfl
  · exact newline
  · exact carriage

/-- `read_while` reads no further for a text on which its test fails. -/
theorem readWhile_followed {p : Char → Bool} (stops : ∀ c ∈ text.head?, p c = false)
    (chars : List Char) (lexer : Lexer) :
    readWhile p (chars ++ text) (lexer.followed text) =
      ((readWhile p chars lexer).1, (readWhile p chars lexer).2.followed text) := by
  induction chars generalizing lexer with
  | nil =>
      cases text with
      | nil => rfl
      | cons c text => simp [readWhile, stops c rfl]
  | cons c chars ih =>
      rw [List.cons_append]
      unfold readWhile
      by_cases passes : p c
      · simp only [passes, if_true, past_followed, ih]
      · simp only [passes, if_false, Bool.false_eq_true]

/-- A number ends in front of a text that breaks the line. -/
theorem readDecimal_followed (breaks : Breaks text) (isFloat : Bool) (chars : List Char)
    (lexer : Lexer) : readDecimal isFloat (chars ++ text) (lexer.followed text) =
      ((readDecimal isFloat chars lexer).1, (readDecimal isFloat chars lexer).2.1,
        (readDecimal isFloat chars lexer).2.2.followed text) := by
  induction chars generalizing lexer isFloat with
  | nil =>
      cases text with
      | nil => rfl
      | cons c text =>
          rcases breaks c rfl with rfl | rfl
          · simp [readDecimal, show Char.isDigit '\n' = false from rfl]
          · simp [readDecimal, show Char.isDigit '\r' = false from rfl]
  | cons c chars ih =>
      rw [List.cons_append]
      unfold readDecimal
      split_ifs
      · simp only [past_followed, ih]
      · simp only [past_followed, ih]
      · rfl

/-- Skipped blanks end at the line break. -/
theorem skipWhitespace_followed : (lexer.followed ('\n' :: rest)).skipWhitespace =
    lexer.skipWhitespace.followed ('\n' :: rest) := by
  unfold skipWhitespace
  rw [followed_chars, readWhile_followed (by simp)]

/-- A word ends in front of a text that breaks the line. -/
theorem readIdentifier_followed (breaks : Breaks text) : readIdentifier c (lexer.followed text) =
    ((readIdentifier c lexer).1, (readIdentifier c lexer).2.followed text) := by
  unfold readIdentifier
  rw [followed_chars, readWhile_followed (breaks.stops (by decide) (by decide))]

/-- What is read in front of a text, when the text stands behind it: the same, or another error. -/
def Agrees {α : Type} (text : List Char) :
    Except LexError (α × Lexer) → Except LexError (α × Lexer) → Prop
  | .ok read, .ok read' => read' = (read.1, read.2.followed text)
  | .error _, .error _ => True
  | _, _ => False

/-- What is made of readings that agree agrees. -/
theorem Agrees.map {α β : Type} {f : α → β} {r r' : Except LexError (α × Lexer)}
    (agrees : Agrees text r r') :
    Agrees text (do let (a, lexer) ← r; .ok (f a, lexer))
      (do let (a, lexer) ← r'; .ok (f a, lexer)) := by
  rcases r with e | read <;> rcases r' with e' | read'
  · trivial
  · cases agrees
  · cases agrees
  · obtain rfl : read' = _ := agrees
    rfl

/-- A number literal ends in front of a text that breaks the line. -/
theorem readNumber_followed (breaks : Breaks text) (first : Char) (startCol : Nat) (lexer : Lexer) :
    Agrees text (readNumber first startCol lexer)
      (readNumber first startCol (lexer.followed text)) := by
  have peeked : (lexer.followed text).peek = some 'x' ↔ lexer.peek = some 'x' := by
    obtain ⟨chars, _, _, _, _⟩ := lexer
    cases chars with
    | nil =>
        refine iff_of_false (fun first => ?_) (by simp [peek])
        rcases breaks 'x' first with same | same <;> cases same
    | cons c chars => simp [peek]
  unfold readNumber
  simp only [peeked, followed_line, followed_chars]
  split
  next hex =>
    obtain ⟨tail, here⟩ := peek_eq_some_iff.mp hex.2
    simp only [here, List.cons_append, List.tail_cons, past_followed, followed_chars]
    rw [readWhile_followed (breaks.stops (by decide) (by decide))]
    dsimp only
    split
    · trivial
    · split <;> simp [Agrees]
  next =>
    simp only [readDecimal_followed breaks]
    split
    · rfl
    · split <;> simp [Agrees]

/-- A string literal does not pass the line break. -/
theorem readString_followed (start : Span) (chars : List Char) (lexer : Lexer) :
    Agrees ('\n' :: rest) (readString start chars lexer)
      (readString start (chars ++ '\n' :: rest) (lexer.followed ('\n' :: rest))) := by
  fun_induction readString start chars lexer with
  | case1 => simp [readString, Agrees]
  | case2 => simp [readString, past_followed, Agrees]
  | case3 => simp [readString, escaped, Agrees]
  | case4 c tail lexer _ _ escape ih =>
      simp only [List.cons_append, readString, escape]
      rw [← List.cons_append, past_followed, past_followed]
      exact ih.map
  | case5 c tail lexer _ escape =>
      simp [readString, escape, Agrees]
  | case6 => simp [readString, Agrees]
  | case7 c tail lexer quote last slash line ih =>
      have slash' : c ≠ '\\' := by
        rintro rfl
        cases tail with
        | nil => exact last rfl rfl
        | cons d tail => exact slash d tail rfl rfl
      rw [List.cons_append, readString, past_followed]
      · exact ih.map
      · exact quote
      · exact fun same => absurd same slash'
      · exact fun _ _ same => absurd same slash'
      · exact line

/-- An indent ends at the line break. -/
theorem readIndent_followed : (lexer.followed ('\n' :: rest)).readIndent =
    (lexer.readIndent.1, lexer.readIndent.2.followed ('\n' :: rest)) := by
  unfold readIndent
  rw [followed_chars, readWhile_followed (by simp)]
  generalize readWhile (fun c => c == ' ' || c == '\t') lexer.chars lexer = read
  obtain ⟨blanks, chars, line, col, _, _⟩ := read
  cases chars with
  | nil => simp [peek, followed]
  | cons c chars =>
      simp only [peek, followed, List.cons_append, List.head?_cons]
      split_ifs <;> rfl

/-- The state after a word does not depend on the text behind the line. -/
theorem afterWord_followed (kind : TokenKind) (wasLineStart : Bool) :
    afterWord kind wasLineStart (lexer.followed text) =
      (afterWord kind wasLineStart lexer).followed text := by
  unfold afterWord
  split <;> (try split) <;> rfl

/-- What begins with a dash ends in front of a text that breaks the line. -/
theorem dashToken_followed (breaks : Breaks text) (here : Nat → Span) :
    Agrees text (dashToken here lexer) (dashToken here (lexer.followed text)) := by
  obtain ⟨chars, line, col, lineStart, inDescription⟩ := lexer
  rcases chars with _ | ⟨c, chars⟩
  · rcases text with _ | ⟨c, text⟩
    · rfl
    · rcases breaks c rfl with rfl | rfl <;> rfl
  · by_cases arrow : c = '>'
    · subst arrow
      simp only [dashToken, followed, List.cons_append]
      exact congrArg (Prod.mk _)
        (@past_followed ⟨'>' :: chars, line, col, lineStart, inDescription⟩ '>' chars text)
    · simp only [dashToken, followed, List.cons_append]
      split
      · exact readNumber_followed breaks '-' _ ⟨c :: chars, line, col, lineStart, inDescription⟩
      · rfl

/-- What begins with a quote does not pass the line break. -/
theorem quoteToken_followed (here : Nat → Span) :
    Agrees ('\n' :: rest) (quoteToken here lexer) (quoteToken here (lexer.followed ('\n' :: rest))) := by
  unfold quoteToken
  rw [followed_inDescription, followed_chars]
  split
  · rfl
  · have agrees : Agrees ('\n' :: rest) _ _ := readString_followed (here 1) lexer.chars lexer
    generalize readString (here 1) lexer.chars lexer = r at agrees ⊢
    generalize readString (here 1) (lexer.chars ++ '\n' :: rest) (lexer.followed ('\n' :: rest))
      = r' at agrees ⊢
    rcases r with e | read <;> rcases r' with e' | read'
    · trivial
    · cases agrees
    · cases agrees
    · obtain rfl : read' = _ := agrees
      rfl

/-- Every token that a character begins ends before the line break. -/
theorem charToken_followed (here : Nat → Span) (wasLineStart : Bool) (c : Char) :
    Agrees ('\n' :: rest) (charToken here wasLineStart c lexer)
      (charToken here wasLineStart c (lexer.followed ('\n' :: rest))) := by
  unfold charToken
  cases mark : punctuation c with
  | some kind =>
      dsimp only
      split
      · rfl
      · split
        · exact quoteToken_followed here
        · rfl
  | none =>
      split_ifs
      · rfl
      · exact quoteToken_followed here
      · exact dashToken_followed breaks_newline here
      · exact readNumber_followed breaks_newline c _ lexer
      · rw [readIdentifier_followed breaks_newline]
        exact congrArg (Prod.mk _) (afterWord_followed _ _)
      · rfl

end Pieces

/-- The next token. One comment may stand before it. -/
def step (lexer : Lexer) : Except LexError (Token × Lexer) := lexer.nextToken 2

section Steps

/-- The indentation a line begins with. -/
def opened (lexer : Lexer) : Option Token × Lexer :=
    if lexer.atLineStart then lexer.readIndent else (none, lexer)

/-- After the indent the lexer is inside the line. -/
theorem opened_atLineStart : lexer.opened.2.atLineStart = false := by
  unfold opened
  cases start : lexer.atLineStart with
  | false => exact start
  | true =>
      unfold readIndent
      dsimp only
      rw [if_pos rfl]
      split
      · split <;> rfl
      · rfl

/-- The token that opens a line is an indent. -/
theorem opened_kind (begun : lexer.opened.1 = some token) :
    ∃ width, token.kind = .indent width := by
  unfold opened readIndent at begun
  dsimp only at begun
  split at begun
  · split at begun
    · split at begun
      · obtain rfl := Option.some.inj begun
        exact ⟨_, rfl⟩
      · cases begun
    · cases begun
  · cases begun

/-- What a line ends with. -/
def endOfLine (lexer : Lexer) : Token × Lexer :=
  match lexer.chars with
  | [] => (⟨.eof, ⟨lexer.line, lexer.col, 0⟩⟩, lexer)
  | c :: rest => (⟨.newline, ⟨lexer.line, lexer.col, 1⟩⟩, lexer.past c rest)

/-- Past a comment. -/
def pastComment (lexer : Lexer) (rest : List Char) : Lexer :=
  (readWhile (· != '\n') rest (lexer.past '#' rest)).2

/-- A comment ends at the line break. -/
theorem pastComment_followed : (lexer.followed ('\n' :: rest)).pastComment (chars ++ '\n' :: rest) =
    (lexer.pastComment chars).followed ('\n' :: rest) := by
  unfold pastComment
  rw [past_followed, readWhile_followed (by simp)]

/-- `read_while` stops where its test fails. -/
theorem readWhile_stops (p : Char → Bool) (chars : List Char) (lexer : Lexer)
    (here : lexer.chars = chars) :
    ∀ c ∈ (readWhile p chars lexer).2.chars.head?, p c = false := by
  induction chars generalizing lexer with
  | nil => simp [readWhile, here]
  | cons c chars ih =>
      unfold readWhile
      by_cases passes : p c
      · simpa [passes] using ih (lexer.past c chars) (past_chars lexer c chars)
      · simp [passes, here]

/-- `read_while` inside a line keeps the state of the line and the mode. -/
theorem readWhile_state {p : Char → Bool} (stops : p '\n' = false) (chars : List Char)
    (lexer : Lexer) :
    (readWhile p chars lexer).2.atLineStart = lexer.atLineStart ∧
      (readWhile p chars lexer).2.inDescription = lexer.inDescription := by
  induction chars generalizing lexer with
  | nil => exact ⟨rfl, rfl⟩
  | cons c chars ih =>
      unfold readWhile
      by_cases passes : p c
      · have other : c ≠ '\n' := by
          rintro rfl
          rw [stops] at passes
          cases passes
        obtain ⟨start, mode⟩ := ih (lexer.past c chars)
        rw [past_eq other] at start mode
        simp only [passes, if_true]
        rw [past_eq other]
        exact ⟨start, mode⟩
      · simp [passes]

/-- At the end of a line the next token is the one that ends it. -/
theorem nextToken_endOfLine (inLine : lexer.atLineStart = false)
    (ends : ∀ c ∈ lexer.chars.head?, c = '\n') (steps : Nat) :
    nextToken (steps + 1) lexer = .ok lexer.endOfLine := by
  obtain ⟨chars, line, col, _, _⟩ := lexer
  obtain rfl : _ = false := inLine
  cases chars with
  | nil => rfl
  | cons c chars =>
      obtain rfl : c = '\n' := ends c rfl
      rfl

/-- The next token by what the line goes on with. -/
theorem nextToken_eq (steps : Nat) : nextToken (steps + 2) lexer =
    match lexer.opened with
    | (some token, indented) => .ok (token, indented)
    | (none, indented) =>
        let start := indented.skipWhitespace
        match start.chars with
        | [] => .ok start.endOfLine
        | '#' :: rest => .ok (start.pastComment rest).endOfLine
        | c :: rest =>
            charToken (fun len => ⟨start.line, start.col, len⟩) lexer.atLineStart c
              (start.past c rest) := by
  have inLine : lexer.opened.2.atLineStart = false := opened_atLineStart
  unfold nextToken
  change (match lexer.opened with | (some token, lexer) => _ | (none, indented) => _) = _
  generalize lexer.opened = opening at inLine ⊢
  rcases opening with ⟨_ | token, indented⟩
  · dsimp only at inLine ⊢
    have start : indented.skipWhitespace.atLineStart = false :=
      (readWhile_state (by decide) _ _).1.trans inLine
    cases ended : indented.skipWhitespace.chars with
    | nil => simp [endOfLine, ended]
    | cons c rest =>
        by_cases comment : c = '#'
        · subst comment
          refine nextToken_endOfLine ?_ ?_ steps
          · rw [(readWhile_state (by decide) _ _).1, past_eq (by decide)]
            exact start
          · intro c member
            simpa using readWhile_stops _ _ _ (past_chars _ _ _) c member
        · simp
  · rfl

/-- The opening of a line does not depend on the text behind it. -/
theorem opened_followed : (lexer.followed ('\n' :: rest)).opened =
    (lexer.opened.1, lexer.opened.2.followed ('\n' :: rest)) := by
  unfold opened
  rw [followed_atLineStart, readIndent_followed]
  split <;> rfl

/-- What the next token becomes when a line break stands behind the text. -/
def Continues (rest : List Char) : Except LexError (Token × Lexer) →
    Except LexError (Token × Lexer) → Prop
  | .ok (token, lexer), .ok read =>
      if token.kind = .eof then
        read = (⟨.newline, ⟨token.span.line, token.span.col, 1⟩⟩,
          (lexer.followed ('\n' :: rest)).past '\n' rest)
      else read = (token, lexer.followed ('\n' :: rest))
  | .error _, .error _ => True
  | _, _ => False

/-- The end of the text becomes the line break in front of the rest. -/
theorem continues_endOfLine : Continues rest (.ok lexer.endOfLine)
    (.ok (lexer.followed ('\n' :: rest)).endOfLine) := by
  obtain ⟨chars, line, col, _, _⟩ := lexer
  cases chars with
  | nil => rfl
  | cons c chars =>
      simp only [Continues, endOfLine, followed, List.cons_append, reduceCtorEq, if_false]
      exact congrArg (Prod.mk _) (@past_followed ⟨c :: chars, line, col, _, _⟩ c chars
        ('\n' :: rest))

/-- A reading that agrees and does not end the text goes on behind the line. -/
theorem Agrees.continues {r r' : Except LexError (Token × Lexer)} (agrees : Agrees ('\n' :: rest) r r')
    (more : ∀ token after, r = .ok (token, after) → token.kind ≠ .eof) : Continues rest r r' := by
  rcases r with e | ⟨token, after⟩ <;> rcases r' with e' | read'
  · trivial
  · cases agrees
  · cases agrees
  · rw [Continues, if_neg (more token after rfl)]
    exact agrees

/-- Tokens that stand for no text. -/
def isLayout : TokenKind → Bool
  | .eof | .newline | .indent _ => true
  | _ => false

/-- A number is not layout. -/
theorem readNumber_layout {first : Char} {startCol : Nat}
    (read : readNumber first startCol lexer = .ok (token, after)) :
    isLayout token.kind = false := by
  unfold readNumber at read
  dsimp only at read
  split at read
  · split at read
    · cases read
    · split at read <;> cases read
      rfl
  · split at read
    · cases read
      rfl
    · split at read <;> cases read
      rfl

/-- A word is not layout. -/
theorem keywordOrIdent_layout (ident : String) : isLayout (keywordOrIdent ident) = false := by
  unfold keywordOrIdent
  split <;> rfl

/-- A punctuation mark is not layout. -/
theorem punctuation_layout {kind : TokenKind} (mark : punctuation c = some kind) :
    isLayout kind = false := by
  unfold punctuation at mark
  split at mark <;> cases mark <;> rfl

/-- A character begins a layout token exactly when it is the line break. -/
theorem charToken_layout {here : Nat → Span} {wasLineStart : Bool}
    (read : charToken here wasLineStart c lexer = .ok (token, after)) :
    (c = '\n' ∧ token.kind = .newline) ∨ (c ≠ '\n' ∧ isLayout token.kind = false) := by
  unfold charToken at read
  split at read
  next line =>
    cases read
    exact .inl ⟨line, rfl⟩
  next line =>
    refine .inr ⟨line, ?_⟩
    split at read
    · unfold quoteToken at read
      split at read
      · cases read
        rfl
      · split at read <;> cases read
        rfl
    · split at read
      next mark =>
        cases read
        exact punctuation_layout mark
      · split_ifs at read
        · unfold dashToken at read
          split at read
          · cases read
            rfl
          · split at read
            · exact readNumber_layout read
            · cases read
              rfl
          · cases read
            rfl
        · exact readNumber_layout read
        · cases read
          exact keywordOrIdent_layout _
        · cases read
          rfl

/-- Only a line break is read as one. -/
theorem charToken_kind {here : Nat → Span} {wasLineStart : Bool}
    (read : charToken here wasLineStart c lexer = .ok (token, after)) :
    token.kind ≠ .eof ∧ (token.kind = .newline ↔ c = '\n') := by
  obtain ⟨line, kind⟩ | ⟨line, text⟩ := charToken_layout read
  · simp [line, kind]
  · refine ⟨fun kind => ?_, iff_of_false (fun kind => ?_) line⟩
    · rw [kind] at text
      cases text
    · rw [kind] at text
      cases text

/-- Up to a line break the tokens are the same; the end of the text becomes the line break. -/
theorem step_followed : Continues rest lexer.step (lexer.followed ('\n' :: rest)).step := by
  unfold step
  rw [nextToken_eq, nextToken_eq, opened_followed]
  rcases opening : lexer.opened with ⟨_ | token, indented⟩
  · dsimp only
    rw [skipWhitespace_followed, followed_chars, followed_atLineStart]
    generalize indented.skipWhitespace = start
    obtain ⟨chars, line, col, lineStart, inDescription⟩ := start
    rcases chars with _ | ⟨c, chars⟩
    · exact continues_endOfLine
    · rw [List.cons_append]
      dsimp only
      split
      next mark => cases mark
      next tail mark =>
        obtain ⟨rfl, rfl⟩ := List.cons.inj mark
        have ended :=
          @continues_endOfLine (pastComment ⟨'#' :: chars, line, col, lineStart, inDescription⟩
            chars) rest
        rwa [← pastComment_followed] at ended
      next c' tail other mark =>
        obtain ⟨rfl, rfl⟩ := List.cons.inj mark
        split
        next mark => cases mark
        next mark => exact absurd (List.cons.inj mark).1 other
        next mark =>
          obtain ⟨rfl, rfl⟩ := List.cons.inj mark
          refine Agrees.continues ?_ fun token after read => (charToken_kind read).1
          rw [past_followed]
          exact charToken_followed _ _ _
  · obtain ⟨width, kind⟩ := opened_kind (congrArg Prod.fst opening)
    simp [Continues, kind]

end Steps

section Progress

/-- The text in front of `after` is what is left of a line. -/
def PartLeft (chars left : List Char) : Prop := ∃ used, chars = used ++ left ∧ '\n' ∉ used

/-- Nothing read leaves all of the text. -/
theorem PartLeft.refl : PartLeft chars chars := ⟨[], rfl, List.not_mem_nil⟩

/-- What is left of what was left is left of the text. -/
theorem PartLeft.trans {left : List Char} (first : PartLeft chars rest)
    (second : PartLeft rest left) : PartLeft chars left := by
  obtain ⟨used, rfl, line⟩ := first
  obtain ⟨used', rfl, line'⟩ := second
  exact ⟨used ++ used', (List.append_assoc ..).symm, by simp [line, line']⟩

/-- What is left is no longer than the text. -/
theorem PartLeft.length_le (passes : PartLeft chars rest) : rest.length ≤ chars.length := by
  obtain ⟨used, rfl, -⟩ := passes
  simp

/-- The lexer further on in the same line. -/
structure Advances (lexer after : Lexer) : Prop where
  lineStart : after.atLineStart = lexer.atLineStart
  mode : after.inDescription = lexer.inDescription
  part : PartLeft lexer.chars after.chars

/-- The lexer advances over nothing. -/
theorem Advances.refl : Advances lexer lexer := ⟨rfl, rfl, .refl⟩

/-- Advances follow each other. -/
theorem Advances.trans (first : Advances lexer mid) (second : Advances mid after) :
    Advances lexer after :=
  ⟨second.lineStart.trans first.lineStart, second.mode.trans first.mode,
    first.part.trans second.part⟩

/-- Passing a character other than the line break advances in the line. -/
theorem advances_past (here : lexer.chars = c :: rest) (other : c ≠ '\n') :
    Advances lexer (lexer.past c rest) := by
  rw [past_eq other]
  exact ⟨rfl, rfl, [c], here, by simpa using Ne.symm other⟩

/-- What `read_while` reads and what it leaves make up the text. -/
theorem readWhile_parts (p : Char → Bool) (here : lexer.chars = chars) :
    (readWhile p chars lexer).1 ++ (readWhile p chars lexer).2.chars = chars := by
  induction chars generalizing lexer with
  | nil => exact here
  | cons c chars ih =>
      unfold readWhile
      by_cases passes : p c
      · simpa [passes] using ih (past_chars lexer c chars)
      · simp [passes, here]

/-- `read_while` advances in the line when its test fails on the line break. -/
theorem advances_readWhile {p : Char → Bool} (stops : p '\n' = false) (here : lexer.chars = chars) :
    Advances lexer (readWhile p chars lexer).2 := by
  refine ⟨(readWhile_state stops _ _).1, (readWhile_state stops _ _).2, _,
    here.trans (readWhile_parts p here).symm, ?_⟩
  exact not_newline_of_all (readWhile_all p chars lexer) stops

/-- Reading digits advances in the line. -/
theorem advances_readDecimal {isFloat : Bool} (here : lexer.chars = chars) :
    Advances lexer (readDecimal isFloat chars lexer).2.2 := by
  induction chars generalizing lexer isFloat with
  | nil => exact .refl
  | cons c chars ih =>
      unfold readDecimal
      split_ifs with digit point
      · have other : c ≠ '\n' := by
          rintro rfl
          cases digit
        exact (advances_past here other).trans (ih (past_chars _ _ _))
      · have other : c ≠ '\n' := by
          rintro rfl
          cases point
        exact (advances_past here other).trans (ih (past_chars _ _ _))
      · exact .refl

/-- Reading a number advances in the line. -/
theorem advances_readNumber {first : Char} {startCol : Nat}
    (read : readNumber first startCol lexer = .ok (token, after)) :
    Advances lexer after := by
  unfold readNumber at read
  dsimp only at read
  split at read
  next hex =>
    obtain ⟨tail, here⟩ := peek_eq_some_iff.mp hex.2
    have prefixed : Advances lexer (lexer.past 'x' lexer.chars.tail) := by
      rw [here]
      exact advances_past here (by decide)
    split at read
    · cases read
    · split at read <;> cases read
      exact prefixed.trans (advances_readWhile (by decide) rfl)
  next =>
    split at read
    · cases read
      exact advances_readDecimal rfl
    · split at read <;> cases read
      exact advances_readDecimal rfl

/-- Reading a string advances in the line. -/
theorem advances_readString {start : Span} {s : List Char} (here : lexer.chars = chars)
    (read : readString start chars lexer = .ok (s, after)) : Advances lexer after := by
  fun_induction readString start chars lexer generalizing s with
  | case1 => cases read
  | case2 =>
      cases read
      exact advances_past here (by decide)
  | case3 => cases read
  | case4 c tail lexer _ _ escape =>
      rename_i ih
      obtain ⟨⟨s', after'⟩, later, same⟩ := Flow.bind_eq_ok_iff.mp read
      cases same
      have other : c ≠ '\n' := by
        rintro rfl
        cases escape
      exact ((advances_past here (by decide)).trans (advances_past (past_chars _ _ _) other)).trans
        (ih (past_chars _ _ _) later)
  | case5 => cases read
  | case6 => cases read
  | case7 c tail lexer quote last slash line ih =>
      obtain ⟨⟨s', after'⟩, later, same⟩ := Flow.bind_eq_ok_iff.mp read
      cases same
      exact (advances_past here line).trans (ih (past_chars _ _ _) later)

section Words

variable {kind : TokenKind} {wasLineStart : Bool} {other : Lexer}

/-- The state after a word has the same text left. -/
@[simp] theorem afterWord_chars : (afterWord kind wasLineStart lexer).chars = lexer.chars := by
  unfold afterWord
  split <;> (try split) <;> rfl

/-- The state after a word begins a line where the state in front of it does. -/
@[simp] theorem afterWord_atLineStart :
    (afterWord kind wasLineStart lexer).atLineStart = lexer.atLineStart := by
  unfold afterWord
  split <;> (try split) <;> rfl

/-- The mode after a word depends on the mode in front of it. -/
theorem afterWord_mode (same : lexer.inDescription = other.inDescription) :
    (afterWord kind wasLineStart lexer).inDescription =
      (afterWord kind wasLineStart other).inDescription := by
  unfold afterWord
  split <;> (try split) <;> first | rfl | exact same

end Words

/-- A number is not a keyword. -/
theorem readNumber_not_keyword {first : Char} {startCol : Nat} {word : Keyword}
    (read : readNumber first startCol lexer = .ok (token, after)) : token.kind ≠ .keyword word := by
  unfold readNumber at read
  dsimp only at read
  split at read
  · split at read
    · cases read
    · split at read <;> cases read
      simp
  · split at read
    · cases read
      simp
    · split at read <;> cases read
      simp

/-- A word decides the mode; the other tokens keep it. -/
theorem charToken_state {here : Nat → Span} {wasLineStart : Bool} (line : c ≠ '\n')
    (read : charToken here wasLineStart c lexer = .ok (token, after)) :
    after.atLineStart = lexer.atLineStart ∧
      after.inDescription = (afterWord token.kind wasLineStart lexer).inDescription ∧
      PartLeft lexer.chars after.chars := by
  have other {kind : TokenKind} (advances : Advances lexer after)
      (plain : ∀ word, kind ≠ .keyword word) : after.atLineStart = lexer.atLineStart ∧
        after.inDescription = (afterWord kind wasLineStart lexer).inDescription ∧
        PartLeft lexer.chars after.chars := by
    refine ⟨advances.lineStart, ?_, advances.part⟩
    unfold afterWord
    split <;> first | exact absurd rfl (plain _) | exact advances.mode
  unfold charToken at read
  rw [if_neg line] at read
  split at read
  · unfold quoteToken at read
    split at read
    · cases read
      exact other .refl (by simp)
    · split at read
      · cases read
      next string =>
        cases read
        exact other (advances_readString rfl string) (by simp)
  · split at read
    next mark =>
      cases read
      refine other .refl fun word same => ?_
      subst same
      unfold punctuation at mark
      split at mark <;> cases mark
    · split_ifs at read
      · unfold dashToken at read
        split at read
        next arrow =>
          cases read
          exact other (advances_past arrow (by decide)) (by simp)
        · split at read
          · exact other (advances_readNumber read) (fun word => readNumber_not_keyword read)
          · cases read
            exact other .refl (by simp)
        · cases read
          exact other .refl (by simp)
      · exact other (advances_readNumber read) (fun word => readNumber_not_keyword read)
      · have read' : Advances lexer (readIdentifier c lexer).2 := advances_readWhile (by decide) rfl
        cases read
        exact ⟨afterWord_atLineStart.trans read'.lineStart, afterWord_mode read'.mode, by
          rw [afterWord_chars]
          exact read'.part⟩
      · cases read
        exact other .refl (by simp)

/-- Opening a line keeps the mode and reads only the indent. -/
theorem opened_state : lexer.opened.2.inDescription = lexer.inDescription ∧
    PartLeft lexer.chars lexer.opened.2.chars ∧
    (lexer.opened.1 ≠ none → lexer.opened.2.chars.length < lexer.chars.length) := by
  have parts := readWhile_parts (fun c => c == ' ' || c == '\t') (rfl : lexer.chars = lexer.chars)
  have advances : Advances lexer (readWhile (fun c => c == ' ' || c == '\t') lexer.chars lexer).2 :=
    advances_readWhile (by decide) rfl
  unfold opened
  split
  · unfold readIndent
    generalize readWhile (fun c => c == ' ' || c == '\t') lexer.chars lexer = read at parts advances
    obtain ⟨blanks, later⟩ := read
    dsimp only at parts advances ⊢
    split
    · split
      next filled =>
        refine ⟨advances.mode, advances.part, fun _ => ?_⟩
        have some_ : blanks ≠ [] := by
          rintro rfl
          exact absurd filled.1 (by simp)
        rw [← parts, List.length_append]
        have := List.length_pos_of_ne_nil some_
        dsimp only
        omega
      · exact ⟨advances.mode, advances.part, fun some_ => absurd rfl some_⟩
    · exact ⟨advances.mode, advances.part, fun some_ => absurd rfl some_⟩
  · exact ⟨rfl, .refl, fun some_ => absurd rfl some_⟩

/-- What is left of a text behind a token. -/
def TokenLeft (kind : TokenKind) (chars left : List Char) : Prop :=
  match kind with
  | .eof => PartLeft chars [] ∧ left = []
  | .newline => PartLeft chars ('\n' :: left)
  | _ => PartLeft chars left ∧ left.length < chars.length

/-- A token inside the line leaves a shorter part of the text. -/
theorem tokenLeft_inside {kind : TokenKind} (more : kind ≠ .eof) (inLine : kind ≠ .newline)
    (passes : PartLeft chars rest)
    (fewer : rest.length < chars.length) : TokenLeft kind chars rest := by
  unfold TokenLeft
  split
  · exact absurd rfl more
  · exact absurd rfl inLine
  · exact ⟨passes, fewer⟩

/-- The token at the end of a line is the line break or the end of the text. -/
theorem endOfLine_state (inLine : lexer.atLineStart = false)
    (ends : ∀ c ∈ lexer.chars.head?, c = '\n')
    {wasLineStart : Bool} :
    lexer.endOfLine.2.atLineStart = decide (lexer.endOfLine.1.kind = .newline) ∧
      lexer.endOfLine.2.inDescription =
        (afterWord lexer.endOfLine.1.kind wasLineStart lexer).inDescription ∧
      ∀ chars, PartLeft chars lexer.chars →
        TokenLeft lexer.endOfLine.1.kind chars lexer.endOfLine.2.chars := by
  obtain ⟨chars, line, col, _, _⟩ := lexer
  cases chars with
  | nil => exact ⟨inLine, rfl, fun chars passes => ⟨passes, rfl⟩⟩
  | cons c chars =>
      obtain rfl : c = '\n' := ends c rfl
      exact ⟨rfl, rfl, fun chars passes => passes⟩

/-- What the lexer is after a token: at the start of a line behind a line break only, in the mode
that the word decides, and further on in the text. -/
theorem step_state (read : lexer.step = .ok (token, after)) :
    after.atLineStart = decide (token.kind = .newline) ∧
      after.inDescription = (afterWord token.kind lexer.atLineStart lexer).inDescription ∧
      TokenLeft token.kind lexer.chars after.chars := by
  unfold step at read
  rw [nextToken_eq] at read
  have begun : lexer.opened.2.atLineStart = false := opened_atLineStart
  have mode : lexer.opened.2.inDescription = lexer.inDescription := opened_state.1
  have part : PartLeft lexer.chars lexer.opened.2.chars := opened_state.2.1
  have indents : lexer.opened.1 ≠ none → lexer.opened.2.chars.length < lexer.chars.length :=
    opened_state.2.2
  have widths (token : Token) : lexer.opened.1 = some token → ∃ width, token.kind =
    .indent width := opened_kind
  generalize lexer.opened = opening at read begun mode part indents widths
  rcases opening with ⟨_ | token', indented⟩
  · have skipped : Advances indented indented.skipWhitespace := advances_readWhile (by decide) rfl
    dsimp only at read begun mode part
    have start := skipped.lineStart.trans begun
    have mode' := skipped.mode.trans mode
    have part' := part.trans skipped.part
    generalize indented.skipWhitespace = s at read start mode' part'
    have ended {e : Lexer} (inLine : e.atLineStart = false) (ends : ∀ c ∈ e.chars.head?, c = '\n')
        (same : e.inDescription = lexer.inDescription) (passes : PartLeft lexer.chars e.chars)
        (done : e.endOfLine = (token, after)) :
        after.atLineStart = decide (token.kind = .newline) ∧
          after.inDescription = (afterWord token.kind lexer.atLineStart lexer).inDescription ∧
          TokenLeft token.kind lexer.chars after.chars := by
      obtain ⟨line, word, left⟩ := @endOfLine_state e inLine ends lexer.atLineStart
      rw [done] at line word left
      exact ⟨line, word.trans (afterWord_mode same), left _ passes⟩
    split at read
    next text => exact ended start (by simp [text]) mode' part' (Except.ok.inj read)
    next rest text =>
      have comment : Advances s (s.past '#' rest) := advances_past text (by decide)
      have past : Advances s (s.pastComment rest) :=
        comment.trans (advances_readWhile (by decide) (past_chars _ _ _))
      refine ended (past.lineStart.trans start) (fun c member => ?_) (past.mode.trans mode')
        (part'.trans past.part)
        (Except.ok.inj read)
      simpa using readWhile_stops _ _ _ (past_chars _ _ _) c member
    next c rest _ text =>
      rw [text] at part'
      by_cases line : c = '\n'
      · subst line
        obtain ⟨rfl, rfl⟩ := Prod.mk.inj (Except.ok.inj read)
        refine ⟨rfl, past_inDescription.trans mode', ?_⟩
        rw [past_chars]
        exact part'
      · obtain ⟨sameLine, word, left⟩ := charToken_state line read
        have inLine : after.atLineStart = false := by rw [sameLine, past_eq line, start]
        obtain ⟨more, kind⟩ := charToken_kind read
        have kind : ¬ token.kind = .newline := fun same => line (kind.mp same)
        rw [past_chars] at left
        refine ⟨by
          rw [inLine, decide_eq_false kind], word.trans
            (afterWord_mode (past_inDescription.trans mode')),
          tokenLeft_inside more kind ?_ ?_⟩
        · exact part'.trans (PartLeft.trans ⟨[c], rfl, by simpa using Ne.symm line⟩ left)
        · exact left.length_le.trans_lt part'.length_le
  · cases read
    obtain ⟨width, kind⟩ := widths token rfl
    rw [kind]
    exact ⟨begun, mode, part, indents (by simp)⟩

end Progress

section Runs

variable {run later : List (Token × Lexer)} {last : Token × Lexer} {e : LexError}

/-- The tokens of a text, each with the lexer behind it. -/
inductive Run : Lexer → List (Token × Lexer) → Prop where
  | last {lexer after : Lexer} {token : Token} (read : lexer.step = .ok (token, after))
    (ended : token.kind = .eof) :
      Run lexer [(token, after)]
  | more {lexer mid : Lexer} {token : Token} {run : List (Token × Lexer)}
    (read : lexer.step = .ok (token, mid))
      (inside : token.kind ≠ .eof) (rest : Run mid run) : Run lexer ((token, mid) :: run)

/-- Each token but the last leaves a shorter text. -/
theorem step_shorter (read : lexer.step = .ok (token, after)) (more : token.kind ≠ .eof) :
    after.chars.length < lexer.chars.length := by
  have left := (step_state read).2.2
  unfold TokenLeft at left
  split at left
  next ended => exact absurd ended more
  · exact left.length_le
  · exact left.2

/-- Enough steps give the token that `step` gives. -/
theorem nextToken_steps (enough : lexer.chars.length < steps) :
    nextToken steps lexer = lexer.step := by
  obtain ⟨steps, rfl⟩ := Nat.exists_eq_add_of_lt (Nat.zero_lt_of_lt enough)
  rw [Nat.zero_add] at enough ⊢
  rcases steps with _ | steps
  · obtain ⟨chars, line, col, lineStart, _⟩ := lexer
    obtain rfl : chars = [] := List.length_eq_zero_iff.mp (by simpa using enough)
    cases lineStart <;> rfl
  · exact (nextToken_eq steps).trans (nextToken_eq 0).symm

/-- What is lexed is what a run has read. -/
theorem tokens_eq_ok_iff {read : List Token} (enough : lexer.chars.length < steps) :
    lexer.tokens steps = .ok read ↔ ∃ run, Run lexer run ∧ run.map Prod.fst = read := by
  induction steps generalizing lexer read with
  | zero => exact absurd enough (Nat.not_lt_zero _)
  | succ steps ih =>
      rw [Lexer.tokens, nextToken_steps (Nat.lt_succ_self _)]
      constructor
      · intro done
        obtain ⟨⟨token, after⟩, first, done⟩ := Flow.bind_eq_ok_iff.mp done
        dsimp only at done
        split at done
        next ended =>
          cases done
          exact ⟨_, .last first ended, rfl⟩
        next more =>
          obtain ⟨later, tail, same⟩ := Flow.bind_eq_ok_iff.mp done
          cases same
          have shorter := step_shorter first more
          obtain ⟨run, runs, rfl⟩ := (ih (by omega)).mp tail
          exact ⟨_, .more first more runs, rfl⟩
      · rintro ⟨run, runs, rfl⟩
        cases runs with
        | last first ended => simp [first, ended, bind, Except.bind]
        | @more _ mid _ _ first more runs =>
            have shorter := step_shorter first more
            have tail := (@ih mid _ (by omega)).mpr ⟨_, runs, rfl⟩
            simp [first, more, tail, bind, Except.bind]

/-- The run of a text is unique. -/
theorem Run.unique (one : Run lexer run) (other : Run lexer later) : run = later := by
  induction one generalizing later with
  | last read ended =>
      cases other with
      | last read' _ =>
          rw [read] at read'
          cases read'
          rfl
      | more read' more _ =>
          rw [read] at read'
          cases read'
          exact absurd ended more
  | more read more rest ih =>
      cases other with
      | last read' ended =>
          rw [read] at read'
          cases read'
          exact absurd ended more
      | more read' _ rest' =>
          rw [read] at read'
          cases read'
          rw [ih rest']

/-- A token in front of more text. -/
def withText (text : List Char) (read : Token × Lexer) : Token × Lexer :=
    (read.1, read.2.followed text)

/-- The line break behind a text, in place of its end. -/
def lineBreak (rest : List Char) (last : Token × Lexer) : Token × Lexer :=
  (⟨.newline, ⟨last.1.span.line, last.1.span.col, 1⟩⟩,
    (last.2.followed ('\n' :: rest)).past '\n' rest)

/-- One step in front of a following line, given the step without it. -/
theorem step_followed_ok (read : lexer.step = .ok (token, after)) :
    (lexer.followed ('\n' :: rest)).step =
    .ok (if token.kind = .eof then lineBreak rest (token, after) else withText ('\n' :: rest)
      (token, after)) := by
  have continues : Continues rest lexer.step _ := step_followed
  rw [read] at continues
  cases read' : (lexer.followed ('\n' :: rest)).step with
  | error e => rw [read'] at continues; exact continues.elim
  | ok result =>
      rw [read', Continues] at continues
      split at continues
      next ended => rw [continues, if_pos ended]; rfl
      next more => rw [continues, if_neg more]; rfl

/-- A text in front of a line break is read as without it. -/
theorem Run.followed_iff {front : List (Token × Lexer)} (runs : Run lexer (front ++ [last])) :
    Run (lexer.followed ('\n' :: rest)) run ↔ ∃ later, Run (lineBreak rest last).2 later ∧
      run = front.map (withText ('\n' :: rest)) ++ lineBreak rest last :: later := by
  generalize same : front ++ [last] = whole at runs
  induction runs generalizing front run with
  | @last lexer after token read ended =>
      obtain ⟨rfl, rfl⟩ : front = [] ∧ last = (token, after) := by
        rcases front with _ | ⟨_, _ | ⟨_, _⟩⟩ <;> simp_all
      have read' : (lexer.followed ('\n' :: rest)).step = .ok (lineBreak rest (token, after)) := by
        rw [step_followed_ok read, if_pos ended]
      constructor
      · intro runs
        cases runs with
        | last read'' ended' =>
            rw [read'] at read''
            cases read''
            cases ended'
        | @more _ _ _ later read'' _ rest' =>
            rw [read'] at read''
            obtain ⟨rfl, rfl⟩ := Prod.mk.inj (Except.ok.inj read'')
            exact ⟨later, rest', rfl⟩
      · rintro ⟨later, runs, rfl⟩
        exact .more read' (by simp) runs
  | @more lexer mid token tail read inside _ ih =>
      obtain ⟨front, rfl, rfl⟩ : ∃ front', front = (token, mid) :: front' ∧ tail =
        front' ++ [last] := by
        rcases front with _ | ⟨head, front⟩
        · obtain ⟨_, rfl⟩ := List.cons.inj same
          rename_i rest'
          cases rest'
        · obtain ⟨rfl, rfl⟩ := List.cons.inj same
          exact ⟨front, rfl, rfl⟩
      have read' : (lexer.followed ('\n' :: rest)).step =
        .ok (token, mid.followed ('\n' :: rest)) := by
        rw [step_followed_ok read, if_neg inside]
        rfl
      constructor
      · intro runs
        cases runs with
        | last read'' ended' =>
            rw [read'] at read''
            obtain ⟨rfl, rfl⟩ := Prod.mk.inj (Except.ok.inj read'')
            exact absurd ended' inside
        | more read'' _ rest' =>
            rw [read'] at read''
            obtain ⟨rfl, rfl⟩ := Prod.mk.inj (Except.ok.inj read'')
            obtain ⟨later, runs, rfl⟩ := (ih rfl).mp rest'
            exact ⟨later, runs, rfl⟩
      · rintro ⟨later, runs, rfl⟩
        exact .more read' inside ((ih rfl).mpr ⟨later, runs, rfl⟩)

/-- A run ends with the end of the text. -/
theorem Run.snoc (runs : Run lexer run) :
    ∃ front last, run = front ++ [last] ∧ last.1.kind = .eof := by
  induction runs with
  | last read ended => exact ⟨[], _, rfl, ended⟩
  | more read inside rest ih =>
      obtain ⟨front, last, rfl, ended⟩ := ih
      exact ⟨_ :: front, last, rfl, ended⟩

/-- Where a text in front of a line break is read, the text is read alone. -/
theorem Run.of_followed (runs : Run (lexer.followed ('\n' :: rest)) run) :
    ∃ run', Run lexer run' := by
  induction shorter : lexer.chars.length using Nat.strong_induction_on generalizing lexer run with
  | _ n ih =>
      subst shorter
      cases read : lexer.step with
      | error e =>
          have continues : Continues rest lexer.step _ := step_followed
          rw [read] at continues
          cases runs with
          | last read' _ => rw [read'] at continues; exact continues.elim
          | more read' _ _ => rw [read'] at continues; exact continues.elim
      | ok result =>
          obtain ⟨token, mid⟩ := result
          by_cases ended : token.kind = .eof
          · exact ⟨_, .last read ended⟩
          · have read' : (lexer.followed ('\n' :: rest)).step = _ := step_followed_ok read
            rw [if_neg ended] at read'
            cases runs with
            | last read'' ended' =>
                rw [read'] at read''
                obtain ⟨rfl, rfl⟩ := Prod.mk.inj (Except.ok.inj read'')
                exact absurd ended' ended
            | more read'' _ later =>
                rw [read'] at read''
                obtain ⟨rfl, rfl⟩ := Prod.mk.inj (Except.ok.inj read'')
                obtain ⟨run', runs'⟩ := ih _ (step_shorter read ended) later rfl
                exact ⟨_, .more read ended runs'⟩

/-- At the end of a run nothing is left. -/
theorem Run.last_state (runs : Run lexer run) : ∀ last ∈ run.getLast?, last.2.chars = [] := by
  induction runs with
  | last read ended =>
      intro last same
      cases same
      have left := (step_state read).2.2
      rw [ended] at left
      exact left.2
  | @more _ _ _ run read inside rest ih =>
      intro last member
      rcases run with _ | ⟨head, tail⟩
      · cases rest
      · exact ih last (by simpa using member)

/-- Behind the line break the lexer stands at the start of the next line. -/
theorem lineBreak_state {front : List (Token × Lexer)} (runs : Run lexer (front ++ [last])) :
    (lineBreak rest last).2 = ⟨rest, last.2.line + 1, 1, true, last.2.inDescription⟩ := by
  have ended : last.2.chars = [] := runs.last_state last (by simp)
  simp [lineBreak, past, followed, ended]

/-- Behind each token the run goes on. -/
theorem Run.behind {before : List (Token × Lexer)} {read : Token × Lexer}
    (runs : Run lexer (before ++ read :: later))
    (more : read.1.kind ≠ .eof) : ∃ at' : Lexer, at'.step = .ok read ∧ Run read.2 later := by
  induction before generalizing lexer with
  | nil =>
      cases runs with
      | last _ ended => exact absurd ended more
      | more first _ rest => exact ⟨lexer, first, rest⟩
  | cons head before ih =>
      generalize same : (head :: before) ++ read :: later = whole at runs
      cases runs with
      | last _ _ => simp at same
      | more _ _ rest =>
          obtain ⟨-, rfl⟩ := List.cons.inj same
          exact ih rest

/-- The run of a text, if it has so many tokens at most. -/
def runSteps : Nat → Lexer → Option (List (Token × Lexer))
  | 0, _ => none
  | steps + 1, lexer =>
      match lexer.step with
      | .error _ => none
      | .ok (token, after) =>
          if token.kind = .eof then some [(token, after)] else (runSteps steps after).map
            ((token, after) :: ·)

/-- What `run_steps` finds is a run. -/
theorem run_of_runSteps (found : runSteps steps lexer = some run) : Run lexer run := by
  induction steps generalizing lexer run with
  | zero => cases found
  | succ steps ih =>
      unfold runSteps at found
      split at found
      · cases found
      next token after read =>
        split at found
        next ended =>
          cases found
          exact .last read ended
        next more =>
          obtain ⟨tail, later, rfl⟩ := Option.map_eq_some_iff.mp found
          exact .more read more (ih later)

end Runs

end Lexer

/-- What is lexed from a source are the tokens of its run. -/
theorem lex_eq_ok_iff {source : String} {read : List Token} :
    lex source = .ok read ↔ ∃ run, (Lexer.new source).Run run ∧ run.map Prod.fst = read :=
  Lexer.tokens_eq_ok_iff (Nat.lt_succ_self _)

end Sigil
