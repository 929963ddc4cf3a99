import Sigil.Lexer.Places

/-!
# Free text

The lexer in a DESCRIPTION. A quote is read as it stands there, a number is read as a number: free
text is lexed exactly when its numbers can be read.
-/

namespace Sigil

namespace Lexer

/-- Skipped in front of a token. -/
def isSpace (c : Char) : Bool := c == ' ' || c == '\t' || c == '\r'

/-- What ends a description at the start of a line. -/
def isSection : TokenKind → Bool
  | .keyword .contract | .keyword .hash | .keyword .implementation | .keyword .composition
  | .keyword .native | .keyword .endBehavior | .keyword .entry | .keyword .uses
  | .keyword .endExecutable => true
  | _ => false

/-- The word that a line begins with. -/
def firstWord (text : List Char) : Option TokenKind :=
  match text.dropWhile isSpace with
  | [] => none
  | c :: rest =>
      if isIdentStart c then some (keywordOrIdent
        (String.ofList (c :: rest.takeWhile isIdentChar))) else none

/-- A line begins with a section keyword, indented or not. -/
def OpensSection (text : List Char) : Bool := (firstWord text).any isSection

def Indented (text : List Char) : Bool := text.head?.any fun c => c == ' ' || c == '\t'

/-- Decimal digits with at most one point, and what stands behind them. -/
def decimalPart : Bool → List Char → List Char × Bool × List Char
  | isFloat, [] => ([], isFloat, [])
  | isFloat, c :: rest =>
      if c.isDigit then
        let (digits, isFloat, left) := decimalPart isFloat rest
        (c :: digits, isFloat, left)
      else if c == '.' && !isFloat then
        let (digits, isFloat, left) := decimalPart true rest
        (c :: digits, isFloat, left)
      else ([], isFloat, c :: rest)

/-- A number can be read: `0x` has digits that fit a word, and an integer fits one. -/
def NumberFits (first : Char) (rest : List Char) : Prop :=
  if first = '0' ∧ rest.head? = some 'x' then
    let digits := rest.tail.takeWhile Char.isHexDigit
    digits ≠ [] ∧ (parseHex digits).isSome
  else
    let (digits, isFloat, _) := decimalPart false rest
    isFloat ∨ (parseDecimal (first :: digits)).isSome

/-- What stands behind a number. -/
def afterNumber (first : Char) (rest : List Char) : List Char :=
  if first = '0' ∧ rest.head? = some 'x' then rest.tail.dropWhile Char.isHexDigit
  else (decimalPart false rest).2.2

/-- A number begins with a digit, or a minus sign in front of one. -/
def BeginsNumber (c : Char) (rest : List Char) : Prop :=
    c.isDigit ∨ (c = '-' ∧ ∃ d ∈ rest.head?, d.isDigit)

instance (c : Char) (rest : List Char) : Decidable (BeginsNumber c rest) := by
  unfold BeginsNumber
  infer_instance

variable {lexer after : Lexer} {token : Token} {c : Char} {chars rest : List Char}

/-- The digits of a number leave no more text than there was. -/
theorem decimalPart_length (isFloat : Bool) (chars : List Char) :
    (decimalPart isFloat chars).2.2.length ≤ chars.length := by
  induction chars generalizing isFloat with
  | nil => exact le_rfl
  | cons c chars ih =>
      unfold decimalPart
      split_ifs
      · exact (ih isFloat).trans (Nat.le_succ _)
      · exact (ih true).trans (Nat.le_succ _)
      · exact le_rfl

/-- A number leaves no more text than there was. -/
theorem afterNumber_length (first : Char) (rest : List Char) :
    (afterNumber first rest).length ≤ rest.length := by
  unfold afterNumber
  split
  · exact (List.length_dropWhile_le _ _).trans (by simp)
  · exact decimalPart_length _ _

/-- Every number outside words and comments can be read. -/
def Readable : List Char → Prop
  | [] => True
  | c :: rest =>
      if c = '#' then Readable (rest.dropWhile (· != '\n'))
      else if isIdentStart c then Readable (rest.dropWhile isIdentChar)
      else if BeginsNumber c rest then NumberFits c rest ∧ Readable (afterNumber c rest)
      else Readable rest
termination_by text => text.length
decreasing_by
  · exact Nat.lt_succ_of_le (List.length_dropWhile_le _ _)
  · exact Nat.lt_succ_of_le (List.length_dropWhile_le _ _)
  · exact Nat.lt_succ_of_le (afterNumber_length _ _)
  · exact Nat.lt_succ_self _

section Readable

/-- A comment is readable whatever it says, up to its line break. -/
theorem readable_comment : Readable ('#' :: rest) ↔ Readable (rest.dropWhile (· != '\n')) := by
  rw [Readable, if_pos rfl]

/-- A word is readable, and what follows decides. -/
theorem readable_word (begins : isIdentStart c) :
    Readable (c :: rest) ↔ Readable (rest.dropWhile isIdentChar) := by
  obtain ⟨⟨-, -, -, other⟩, -⟩ := isIdentStart_cases begins
  rw [Readable, if_neg other, if_pos begins]

/-- A number is readable when its value fits, and what follows decides. -/
theorem readable_number (begins : BeginsNumber c rest) :
    Readable (c :: rest) ↔ NumberFits c rest ∧ Readable (afterNumber c rest) := by
  have other : c ≠ '#' ∧ isIdentStart c = false := by
    obtain digit | ⟨rfl, -⟩ := begins
    · obtain ⟨⟨-, -, -, other⟩, -⟩ := isDigit_cases digit
      refine ⟨other, ?_⟩
      have start := forall_isIdentChar (P := fun c => c.isDigit → isIdentStart c = false)
        (by decide)
        (isIdentChar_of_isDigit digit) digit
      exact start
    · decide
  rw [Readable, if_neg other.1, other.2, if_neg Bool.false_ne_true, if_pos begins]

/-- A character that begins nothing. -/
def Plain (c : Char) : Prop := c ≠ '#' ∧ isIdentStart c = false ∧ c.isDigit = false ∧ c ≠ '-'

instance (c : Char) : Decidable (Plain c) := by
  unfold Plain
  infer_instance

/-- A plain character is readable, and what follows decides. -/
theorem readable_plain (plain : Plain c) : Readable (c :: rest) ↔ Readable rest := by
  obtain ⟨comment, word, digit, minus⟩ := plain
  rw [Readable, if_neg comment, word, if_neg Bool.false_ne_true,
    if_neg (by simp [BeginsNumber, digit, minus])]

/-- Plain characters in front do not decide. -/
theorem readable_dropWhile {p : Char → Bool} (plain : ∀ c, p c → Plain c) (chars : List Char) :
    Readable (chars.dropWhile p) ↔ Readable chars := by
  induction chars with
  | nil => rfl
  | cons c chars ih =>
      by_cases passes : p c
      · rw [List.dropWhile_cons_of_pos passes, ih, readable_plain (plain c passes)]
      · rw [List.dropWhile_cons_of_neg passes]

/-- Blanks are plain. -/
theorem plain_of_isSpace (space : isSpace c) : Plain c := by
  simp only [isSpace, Bool.or_eq_true, beq_iff_eq] at space
  obtain (rfl | rfl) | rfl := space <;> decide

end Readable

section Tokens

/-- `read_while` splits the text where its test first fails. -/
theorem readWhile_eq (p : Char → Bool) (here : lexer.chars = chars) :
    (readWhile p chars lexer).1 = chars.takeWhile p ∧ (readWhile p chars lexer).2.chars =
      chars.dropWhile p := by
  induction chars generalizing lexer with
  | nil => exact ⟨rfl, here⟩
  | cons c chars ih =>
      unfold readWhile
      by_cases passes : p c
      · obtain ⟨read, left⟩ := ih (past_chars lexer c chars)
        simp [passes, read, left]
      · simp [passes, here]

/-- `read_decimal` splits the text behind the digits. -/
theorem readDecimal_eq (isFloat : Bool) (here : lexer.chars = chars) :
    (readDecimal isFloat chars lexer).1 = (decimalPart isFloat chars).1 ∧
      (readDecimal isFloat chars lexer).2.1 = (decimalPart isFloat chars).2.1 ∧
      (readDecimal isFloat chars lexer).2.2.chars = (decimalPart isFloat chars).2.2 := by
  induction chars generalizing lexer isFloat with
  | nil => exact ⟨rfl, rfl, here⟩
  | cons c chars ih =>
      unfold readDecimal decimalPart
      split_ifs
      · obtain ⟨read, float, left⟩ := ih isFloat (past_chars lexer c chars)
        exact ⟨congrArg (c :: ·) read, float, left⟩
      · obtain ⟨read, float, left⟩ := ih true (past_chars lexer c chars)
        exact ⟨congrArg (c :: ·) read, float, left⟩
      · exact ⟨rfl, rfl, here⟩

/-- What is read of a number. -/
def ReadsNumber (first : Char) (chars : List Char) : Except LexError (Token × Lexer) → Prop
  | .ok read => NumberFits first chars ∧ read.2.chars = afterNumber first chars
  | .error _ => ¬ NumberFits first chars

/-- A number is read exactly when it fits. -/
theorem readNumber_fits (first : Char) (startCol : Nat) :
    ReadsNumber first lexer.chars (readNumber first startCol lexer) := by
  have peeked : lexer.peek = lexer.chars.head? := rfl
  unfold readNumber
  rw [peeked]
  dsimp only
  split
  next hex =>
    have digits := readWhile_eq Char.isHexDigit (past_chars lexer 'x' lexer.chars.tail)
    have fits : NumberFits first lexer.chars ↔ lexer.chars.tail.takeWhile Char.isHexDigit ≠ [] ∧
        (parseHex (lexer.chars.tail.takeWhile Char.isHexDigit)).isSome := by
      rw [NumberFits, if_pos hex]
    have left : afterNumber first lexer.chars = lexer.chars.tail.dropWhile Char.isHexDigit :=
      if_pos hex
    rw [past_chars, digits.1]
    split
    next none_ => exact fun whole => (fits.mp whole).1 none_
    next some_ =>
      split
      next n value => exact ⟨fits.mpr ⟨some_, by rw [value]; rfl⟩, digits.2.trans left.symm⟩
      next value =>
        intro whole
        have read := (fits.mp whole).2
        rw [value] at read
        cases read
  next decimal =>
    obtain ⟨digits, float, left⟩ := readDecimal_eq false (rfl : lexer.chars = lexer.chars)
    have fits : NumberFits first lexer.chars ↔ (decimalPart false lexer.chars).2.1 = true ∨
        (parseDecimal (first :: (decimalPart false lexer.chars).1)).isSome := by
      rw [NumberFits, if_neg decimal]
    have left' : afterNumber first lexer.chars = (decimalPart false lexer.chars).2.2 :=
      if_neg decimal
    rw [digits, float]
    split
    next point => exact ⟨fits.mpr (.inl point), left.trans left'.symm⟩
    next whole =>
      split
      next n value => exact ⟨fits.mpr (.inr (by rw [value]; rfl)), left.trans left'.symm⟩
      next value =>
        rw [ReadsNumber, fits, value]
        simpa using whole

/-- What is read of free text. -/
def ReadsFree (chars : List Char) : Except LexError (Token × Lexer) → Prop
  | .ok read => Readable chars ↔ Readable read.2.chars
  | .error _ => ¬ Readable chars

/-- A number in free text is read exactly when its value fits. -/
theorem readsFree_number {startCol : Nat} (begins : BeginsNumber c lexer.chars) :
    ReadsFree (c :: lexer.chars) (readNumber c startCol lexer) := by
  have fits : ReadsNumber c lexer.chars _ := readNumber_fits c startCol
  cases read : readNumber c startCol lexer with
  | error e =>
      rw [read] at fits
      exact fun readable => fits ((readable_number begins).mp readable).1
  | ok result =>
      rw [read] at fits
      rw [ReadsFree, fits.2, readable_number begins]
      exact and_iff_right fits.1

/-- Punctuation marks are plain. -/
theorem plain_of_punctuation {kind : TokenKind} (mark : punctuation c = some kind) : Plain c := by
  unfold punctuation at mark
  split at mark <;> first | decide | cases mark

/-- In free text every token but a comment is read exactly when it is readable. -/
theorem charToken_readable {here : Nat → Span} {wasLineStart : Bool}
    (free : lexer.inDescription = true)
    (comment : c ≠ '#') : ReadsFree (c :: lexer.chars) (charToken here wasLineStart c lexer) := by
  unfold charToken
  split
  next line =>
    subst line
    exact readable_plain (by decide)
  · split
    next quote =>
      subst quote
      rw [quoteToken, if_pos free]
      exact readable_plain (by decide)
    · split
      next mark => exact readable_plain (plain_of_punctuation mark)
      · split_ifs with minus digit begins
        · subst minus
          unfold dashToken
          have single {rest : List Char} (other : ∀ d ∈ rest.head?, d.isDigit = false) :
              Readable ('-' :: rest) ↔ Readable rest := by
            rw [Readable, if_neg (by decide), if_neg (by decide), if_neg]
            rintro (digit | ⟨-, d, member, digit⟩)
            · cases digit
            · rw [other d member] at digit
              cases digit
          split
          next rest arrow =>
            rw [arrow, ReadsFree, past_chars, single (by simp)]
            exact readable_plain (by decide)
          next d rest _ text =>
            split
            next digit => exact readsFree_number (.inr ⟨rfl, d, by simp [text], digit⟩)
            next other => exact single (by simpa [text] using other)
          next text => exact single (by simp [text])
        · exact readsFree_number (.inl digit)
        · rw [readIdentifier]
          dsimp only
          rw [ReadsFree, afterWord_chars, (readWhile_eq isIdentChar rfl).2]
          exact readable_word begins
        · exact readable_plain ⟨comment, by simpa using begins, by simpa using digit, minus⟩

/-- The indent is the blanks in front of the line. -/
theorem readIndent_dropWhile : lexer.readIndent.2.chars = lexer.chars.dropWhile fun c =>
    c == ' ' || c == '\t' := by
  have blanks := (readWhile_eq (fun c => c == ' ' || c == '\t') (rfl : lexer.chars = lexer.chars)).2
  unfold readIndent
  dsimp only
  split
  · split <;> exact blanks
  · exact blanks

/-- The indent of a line does not decide. -/
theorem opened_readable : Readable lexer.opened.2.chars ↔ Readable lexer.chars := by
  unfold opened
  split
  · rw [readIndent_dropWhile]
    refine readable_dropWhile (fun c blank => plain_of_isSpace ?_) _
    simp only [Bool.or_eq_true, beq_iff_eq] at blank
    simpa [isSpace] using .inl blank
  · rfl

/-- Skipping blanks drops them. -/
theorem skipWhitespace_chars : lexer.skipWhitespace.chars = lexer.chars.dropWhile isSpace :=
    (readWhile_eq _ rfl).2

/-- The end of a line does not decide. -/
theorem endOfLine_readable (ends : ∀ c ∈ lexer.chars.head?, c = '\n') :
    Readable lexer.chars ↔ Readable lexer.endOfLine.2.chars := by
  obtain ⟨chars, line, col, _, _⟩ := lexer
  cases chars with
  | nil => rfl
  | cons c chars =>
      obtain rfl : c = '\n' := ends c rfl
      exact readable_plain (by decide)

/-- A token of free text is read exactly when it is no number that does not fit. -/
theorem step_readable (free : lexer.inDescription = true) : ReadsFree lexer.chars lexer.step := by
  have readable : Readable lexer.opened.2.chars ↔ Readable lexer.chars := opened_readable
  have mode : lexer.opened.2.inDescription = lexer.inDescription := opened_state.1
  unfold step
  rw [nextToken_eq]
  generalize lexer.opened = opening at readable mode ⊢
  rcases opening with ⟨_ | token', indented⟩
  · dsimp only at readable mode ⊢
    have skipped : Advances indented indented.skipWhitespace := advances_readWhile (by decide) rfl
    have readable' : Readable indented.skipWhitespace.chars ↔ Readable lexer.chars := by
      rw [skipWhitespace_chars, readable_dropWhile fun c space => plain_of_isSpace space, readable]
    have free' := (skipped.mode.trans mode).trans free
    generalize indented.skipWhitespace = s at readable' free' ⊢
    split
    next text => exact readable'.symm.trans (endOfLine_readable (by simp [text]))
    next rest text =>
      have left : (s.pastComment rest).chars = rest.dropWhile (· != '\n') :=
        (readWhile_eq _ (past_chars _ _ _)).2
      refine readable'.symm.trans ?_
      rw [text, readable_comment, ← left]
      refine endOfLine_readable fun c member => ?_
      simpa using readWhile_stops _ _ _ (past_chars _ _ _) c member
    next c rest other text =>
      have free'' : (s.past c rest).inDescription = true := past_inDescription.trans free'
      have read := @charToken_readable (s.past c rest) c (fun len => ⟨s.line, s.col, len⟩)
        lexer.atLineStart free''
        fun same => other same
      rw [past_chars, ← text] at read
      generalize charToken _ lexer.atLineStart c (s.past c rest) = r at read ⊢
      rcases r with e | read'
      · exact fun whole => read (readable'.mpr whole)
      · exact readable'.symm.trans read
  · exact readable.symm

end Tokens

section Sections

/-- Dropping more of the same kind again drops the rest. -/
theorem dropWhile_dropWhile {p q : Char → Bool} (weaker : ∀ c, p c → q c) (chars : List Char) :
    (chars.dropWhile p).dropWhile q = chars.dropWhile q := by
  induction chars with
  | nil => rfl
  | cons c chars ih =>
      by_cases passes : p c
      · rw [List.dropWhile_cons_of_pos passes, List.dropWhile_cons_of_pos (weaker c passes), ih]
      · rw [List.dropWhile_cons_of_neg passes]

/-- The blanks of an indent are spaces. -/
theorem isSpace_of_blank (blank : (c == ' ' || c == '\t') = true) : isSpace c := by
  simp only [Bool.or_eq_true, beq_iff_eq] at blank
  simpa [isSpace] using .inl blank

/-- Whether a section opens does not depend on the blanks in front. -/
theorem opensSection_congr {text text' : List Char}
    (same : text.dropWhile isSpace = text'.dropWhile isSpace) :
    OpensSection text = OpensSection text' := by
  unfold OpensSection firstWord
  rw [same]

/-- Only a word can be a section keyword. -/
theorem charToken_section {here : Nat → Span} {wasLineStart : Bool}
    (read : charToken here wasLineStart c lexer = .ok (token, after)) : isSection token.kind =
      if isIdentStart c then isSection (keywordOrIdent
        (String.ofList (c :: lexer.chars.takeWhile isIdentChar)))
      else false := by
  have number {first : Char} {startCol : Nat}
    (read : readNumber first startCol lexer = .ok (token, after)) :
      isSection token.kind = false := by
    unfold isSection
    split <;> first | rfl | exact absurd ‹_› (readNumber_not_keyword read)
  by_cases begins : isIdentStart c
  · obtain ⟨-, line, quote, mark, minus, digit⟩ := isIdentStart_cases begins
    simp only [charToken, line, quote, minus, digit, mark, begins, if_true, if_false,
      Bool.false_eq_true] at read
    rw [if_pos begins, ← (readWhile_eq isIdentChar (rfl : lexer.chars = lexer.chars)).1]
    cases read
    rfl
  · rw [if_neg begins]
    unfold charToken at read
    split at read
    · cases read
      rfl
    · split at read
      · unfold quoteToken at read
        split at read
        · cases read
          rfl
        · split at read <;> cases read
          rfl
      · split at read
        next mark =>
          cases read
          unfold punctuation at mark
          split at mark <;> cases mark <;> rfl
        · split_ifs at read
          · unfold dashToken at read
            split at read
            · cases read
              rfl
            · split at read
              · exact number read
              · cases read
                rfl
            · cases read
              rfl
          · exact number read
          · cases read
            rfl

/-- Opening a line only drops blanks. -/
theorem opened_spaces : lexer.opened.2.chars.dropWhile isSpace = lexer.chars.dropWhile isSpace := by
  unfold opened
  split
  · rw [readIndent_dropWhile, dropWhile_dropWhile fun c blank => isSpace_of_blank blank]
  · rfl

/-- The token that ends a line opens no section. -/
theorem endOfLine_not_section : isSection lexer.endOfLine.1.kind = false := by
  unfold endOfLine
  split <;> rfl

/-- A line that opens with an indent gives that indent first. -/
theorem step_opened {token' : Token} (read : lexer.step = .ok (token, after))
    (begun : lexer.opened.1 = some token') :
    token' = token ∧ after = lexer.opened.2 := by
  unfold step at read
  rw [nextToken_eq] at read
  generalize lexer.opened = opening at read begun ⊢
  rcases opening with ⟨_ | _, indented⟩
  · cases begun
  · cases begun
    cases read
    exact ⟨rfl, rfl⟩

/-- Without an indent the next token is a section keyword exactly when a section opens. -/
theorem step_section_of_opened (read : lexer.step = .ok (token, after))
    (noIndent : lexer.opened.1 = none) :
    isSection token.kind = OpensSection lexer.chars := by
  unfold step at read
  rw [nextToken_eq] at read
  have spaces : lexer.opened.2.chars.dropWhile isSpace = lexer.chars.dropWhile isSpace :=
    opened_spaces
  generalize lexer.opened = opening at read spaces noIndent
  rcases opening with ⟨_ | token', indented⟩
  · dsimp only at read spaces
    rw [← skipWhitespace_chars] at spaces
    rw [OpensSection, firstWord, ← spaces]
    generalize indented.skipWhitespace = s at read
    have ended {e : Lexer} (same : e.endOfLine = (token, after)) :
      isSection token.kind = false := by
      have other : isSection e.endOfLine.1.kind = false := endOfLine_not_section
      rwa [same] at other
    split at read
    next text =>
      rw [text]
      exact ended (Except.ok.inj read)
    next rest text =>
      rw [text]
      exact ended (Except.ok.inj read)
    next c rest other text =>
      rw [text, charToken_section read, past_chars]
      dsimp only
      split <;> rfl
  · cases noIndent

/-- The first token of a line behind its indentation is a section keyword when its first word is. -/
theorem step_section (read : lexer.step = .ok (token, after))
    (noIndent : ∀ width, token.kind ≠ .indent width) :
    isSection token.kind = OpensSection lexer.chars := by
  refine step_section_of_opened read ?_
  cases begun : lexer.opened.1 with
  | none => rfl
  | some token' =>
      obtain ⟨width, kind⟩ := opened_kind begun
      obtain ⟨same, -⟩ := step_opened read begun
      exact absurd (same ▸ kind) (noIndent width)

/-- A section opens with a word. -/
theorem opensSection_iff {text : List Char} (opens : OpensSection text) :
    ∃ c rest, text.dropWhile isSpace = c :: rest ∧ isIdentStart c := by
  unfold OpensSection firstWord at opens
  split at opens
  · cases opens
  next c rest text =>
    refine ⟨c, rest, text, ?_⟩
    by_contra other
    simp [other] at opens

/-- In front of a section keyword an indent is read exactly when one stands there. -/
theorem opened_indent (opens : OpensSection lexer.chars) :
    lexer.opened.1 ≠ none ↔ lexer.atLineStart = true ∧ Indented lexer.chars := by
  obtain ⟨c, rest, solid, begins⟩ := opensSection_iff opens
  obtain ⟨⟨-, -, -, comment⟩, line, -⟩ := isIdentStart_cases begins
  unfold opened
  cases start : lexer.atLineStart with
  | false => simp
  | true =>
      have blanks := readWhile_eq (fun c => c == ' ' || c == '\t') (rfl : lexer.chars = lexer.chars)
      have left : (lexer.chars.dropWhile fun c => c == ' ' || c == '\t').dropWhile isSpace =
        lexer.chars.dropWhile isSpace :=
        dropWhile_dropWhile (fun _ blank => isSpace_of_blank blank) lexer.chars
      unfold readIndent
      rw [if_pos rfl]
      generalize readWhile (fun c => c == ' ' || c == '\t') lexer.chars lexer = read at blanks ⊢
      obtain ⟨b, l⟩ := read
      obtain ⟨rfl, chars⟩ : b = _ ∧ l.chars = _ := blanks
      rw [← chars, solid] at left
      obtain ⟨d, later, text, line', comment'⟩ :
        ∃ d later, l.chars = d :: later ∧ d ≠ '\n' ∧ d ≠ '#' := by
        cases text : l.chars with
        | nil => rw [text] at left; cases left
        | cons d later =>
            refine ⟨d, later, rfl, ?_⟩
            rw [text] at left
            by_cases space : isSpace d
            · simp only [isSpace, Bool.or_eq_true, beq_iff_eq] at space
              obtain (rfl | rfl) | rfl := space <;> decide
            · rw [List.dropWhile_cons_of_neg space] at left
              obtain ⟨rfl, -⟩ := List.cons.inj left
              exact ⟨line, comment⟩
      simp only [peek, text, List.head?_cons]
      rw [true_and, Indented]
      cases lexer.chars with
      | nil => simp
      | cons e tail =>
          by_cases blank : (e == ' ' || e == '\t') = true
          · have filled : 0 < (if e = ' ' then 1 else 2) := by split <;> decide
            rw [if_pos]
            · simp [blank]
            · refine ⟨?_, line', comment'⟩
              simp only [List.takeWhile_cons, blank, if_true, List.map_cons, List.sum_cons]
              omega
          · simp [blank]

/-- A line that begins with a section keyword has an indentation when it is indented. -/
theorem step_indent (read : lexer.step = .ok (token, after)) (opens : OpensSection lexer.chars) :
    (∃ width, token.kind = .indent width) ↔ lexer.atLineStart = true ∧ Indented lexer.chars := by
  rw [← opened_indent opens]
  constructor
  · rintro ⟨width, kind⟩ none_
    have section_ := step_section_of_opened read none_
    rw [opens, kind] at section_
    cases section_
  · intro some_
    obtain ⟨token', begun⟩ := Option.ne_none_iff_exists'.mp some_
    obtain ⟨same, -⟩ := step_opened read begun
    exact same ▸ opened_kind begun

/-- An indent token is the one that opens the line. -/
theorem opened_of_indent {width : Nat} (read : lexer.step = .ok (token, after))
    (kind : token.kind = .indent width) :
    lexer.opened = (some token, after) := by
  unfold step at read
  rw [nextToken_eq] at read
  generalize lexer.opened = opening at read ⊢
  rcases opening with ⟨_ | _, indented⟩
  · have other {e : Lexer} (same : e.endOfLine = (token, after)) : False := by
      have fails : e.endOfLine.1.kind ≠ .indent width := by
        unfold endOfLine
        split <;> simp
      rw [same] at fails
      exact fails kind
    dsimp only at read
    split at read
    · exact (other (Except.ok.inj read)).elim
    · exact (other (Except.ok.inj read)).elim
    · obtain ⟨-, line⟩ | ⟨-, text⟩ := charToken_layout read
      · rw [kind] at line
        cases line
      · rw [kind] at text
        cases text
  · cases read
    rfl

/-- An indentation begins a line, and behind it stands the rest of the line. -/
theorem step_behind_indent {width : Nat} (read : lexer.step = .ok (token, after))
    (kind : token.kind = .indent width) :
    lexer.atLineStart = true ∧ after.chars.dropWhile isSpace = lexer.chars.dropWhile isSpace := by
  have opening := opened_of_indent read kind
  refine ⟨?_, ?_⟩
  · by_contra inLine
    rw [opened, if_neg inLine] at opening
    cases opening
  · have spaces : lexer.opened.2.chars.dropWhile isSpace = lexer.chars.dropWhile isSpace :=
      opened_spaces
    rwa [opening] at spaces

end Sections

end Lexer

end Sigil
