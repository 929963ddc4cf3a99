import Sigil.Lexer.Lines

/-!
# Columns

The lexer counts a line in characters. A token starts as many columns into its line as there
are characters in front of it; a string literal is as long as its text in bytes with every
escape counted as what it stands for.
-/

namespace Sigil

/-- The bytes of some characters. -/
def byteLen (text : List Char) : Nat := (text.map Char.utf8Size).sum

section Bytes

variable {c : Char} {text text' : List Char}

/-- The empty text takes no bytes. -/
@[simp] theorem byteLen_nil : byteLen [] = 0 := rfl

/-- A text takes its first character's bytes and those of the rest. -/
@[simp] theorem byteLen_cons : byteLen (c :: text) = c.utf8Size + byteLen text := rfl

/-- Texts take their bytes one after the other. -/
@[simp] theorem byteLen_append : byteLen (text ++ text') = byteLen text + byteLen text' := by
  simp [byteLen]

/-- Every character takes a byte at least. -/
theorem length_le_byteLen (text : List Char) : text.length ≤ byteLen text := by
  induction text with
  | nil => exact le_rfl
  | cons c text ih =>
      have positive := c.utf8Size_pos
      rw [List.length_cons, byteLen_cons]
      omega

/-- A string takes the bytes of its characters. -/
theorem utf8ByteSize_ofList (text : List Char) :
    (String.ofList text).utf8ByteSize = byteLen text := by
  induction text with
  | nil => rfl
  | cons c text ih => simp_all [String.utf8ByteSize_ofList]

/-- Characters of one byte each. -/
theorem length_eq_byteLen_iff : text.length = byteLen text ↔ ∀ c ∈ text, c.utf8Size = 1 := by
  induction text with
  | nil => simp
  | cons c text ih =>
      have positive := c.utf8Size_pos
      have le := length_le_byteLen text
      rw [List.forall_mem_cons, ← ih, List.length_cons, byteLen_cons]
      omega

end Bytes

/-- What stands behind the last line break. -/
def lineSoFar (text : List Char) : List Char := text.rtakeWhile (· ≠ '\n')

section Lines

variable {text text' : List Char}

/-- Text without a line break lengthens the line. -/
theorem lineSoFar_append (inLine : '\n' ∉ text') :
    lineSoFar (text ++ text') = lineSoFar text ++ text' := by
  induction text' using List.reverseRecOn with
  | nil => simp
  | append_singleton front c ih =>
      simp only [List.mem_append, List.mem_singleton, not_or] at inLine
      rw [← List.append_assoc, lineSoFar,
        List.rtakeWhile_concat_pos _ _ _ (by simpa using Ne.symm inLine.2),
        ← List.append_assoc, ← ih inLine.1, lineSoFar]

/-- Behind a line break the line is empty. -/
@[simp] theorem lineSoFar_break : lineSoFar (text ++ ['\n']) = [] :=
  List.rtakeWhile_concat_neg _ _ _ (by simp)

/-- A text without a line break is its line so far. -/
theorem lineSoFar_eq (inLine : '\n' ∉ text) : lineSoFar text = text := by
  simpa [lineSoFar] using @lineSoFar_append [] text inLine

/-- The line so far has no line break. -/
theorem newline_notMem_lineSoFar : '\n' ∉ lineSoFar text := fun member => by
  simpa using List.mem_rtakeWhile_imp member

/-- A text up to its last line break, and the rest. -/
theorem lineSoFar_split (text : List Char) :
    ∃ head, text = head ++ lineSoFar text ∧ (head = [] ∨ ∃ lines, head = lines ++ ['\n']) := by
  induction text using List.reverseRecOn with
  | nil => exact ⟨[], rfl, .inl rfl⟩
  | append_singleton front c ih =>
      by_cases line : c = '\n'
      · subst line
        exact ⟨front ++ ['\n'], by simp, .inr ⟨front, rfl⟩⟩
      · obtain ⟨head, split, ends⟩ := ih
        refine ⟨head, ?_, ends⟩
        rw [lineSoFar_append (by simpa using Ne.symm line), ← List.append_assoc, ← split]

end Lines

namespace Lexer

variable {lexer mid start after : Lexer} {token : Token} {c : Char}
  {chars rest text text' before : List Char}

/-- The lexer behind some text of the line it stands in. -/
structure Moves (lexer : Lexer) (text : List Char) (after : Lexer) : Prop where
  chars : lexer.chars = text ++ after.chars
  inLine : '\n' ∉ text
  line : after.line = lexer.line
  col : after.col = lexer.col + text.length

/-- The lexer moves over nothing. -/
theorem Moves.refl : Moves lexer [] lexer := ⟨rfl, List.not_mem_nil, rfl, rfl⟩

/-- Moves follow each other. -/
theorem Moves.trans (first : Moves lexer text mid) (second : Moves mid text' after) :
    Moves lexer (text ++ text') after where
  chars := by rw [first.chars, second.chars, List.append_assoc]
  inLine := by simp [first.inLine, second.inLine]
  line := second.line.trans first.line
  col := by rw [second.col, first.col, List.length_append, Nat.add_assoc]

/-- Passing a character other than the line break moves over it. -/
theorem moves_past (here : lexer.chars = c :: rest) (other : c ≠ '\n') :
    Moves lexer [c] (lexer.past c rest) := by
  rw [past_eq other]
  exact ⟨here, by simpa using Ne.symm other, rfl, rfl⟩

/-- `read_while` moves over what it reads. -/
theorem moves_readWhile {p : Char → Bool} (stops : p '\n' = false) (here : lexer.chars = chars) :
    Moves lexer (readWhile p chars lexer).1 (readWhile p chars lexer).2 := by
  induction chars generalizing lexer with
  | nil => exact .refl
  | cons c chars ih =>
      unfold readWhile
      by_cases passes : p c
      · have other : c ≠ '\n' := by
          rintro rfl
          simp [stops] at passes
        rw [if_pos passes]
        exact (moves_past here other).trans (ih (past_chars lexer c chars))
      · rw [if_neg passes]
        exact .refl

/-- Reading digits moves over them. -/
theorem moves_readDecimal {isFloat : Bool} (here : lexer.chars = chars) :
    Moves lexer (readDecimal isFloat chars lexer).1 (readDecimal isFloat chars lexer).2.2 := by
  induction chars generalizing lexer isFloat with
  | nil => exact .refl
  | cons c chars ih =>
      unfold readDecimal
      split_ifs with digit point
      · have other : c ≠ '\n' := by
          rintro rfl
          cases digit
        exact (moves_past here other).trans (ih (past_chars _ _ _))
      · have other : c ≠ '\n' := by
          rintro rfl
          cases point
        exact (moves_past here other).trans (ih (past_chars _ _ _))
      · exact .refl

/-- A character of one byte that is no backslash and no carriage return. -/
def Simple (c : Char) : Prop := c.utf8Size = 1 ∧ c ≠ '\\' ∧ c ≠ '\r'

instance : DecidablePred Simple := fun c =>
    inferInstanceAs (Decidable (c.utf8Size = 1 ∧ c ≠ '\\' ∧ c ≠ '\r'))

/-- Identifier characters take one column and one byte. -/
theorem simple_of_isIdentChar (inside : isIdentChar c) : Simple c :=
  forall_isIdentChar (P := Simple) (by decide) inside

/-- Digits take one column and one byte. -/
theorem simple_of_isDigit (digit : c.isDigit) : Simple c :=
  simple_of_isIdentChar (by simp [isIdentChar, Char.isAlphanum, digit])

/-- A span from a place on that is no longer than some text, and as long as it when nothing in it
is escaped. -/
structure Covers (line col : Nat) (text : List Char) (span : Span) : Prop where
  line : span.line = line
  col : span.col = col
  le : span.len ≤ byteLen text
  whole : span.len = byteLen text ↔ '\\' ∉ text
  last : text.getLast? ≠ some '\r'

/-- A span as long as a text of simple characters covers it. -/
theorem covers_of_simple {line col : Nat} (simple : ∀ c ∈ text, Simple c) :
    Covers line col text ⟨line, col, text.length⟩ where
  line := rfl
  col := rfl
  le := length_le_byteLen text
  whole := iff_of_true (length_eq_byteLen_iff.mpr fun c member => (simple c member).1)
    fun member => (simple _ member).2.1 rfl
  last := fun last => (simple _ (List.mem_of_getLast? last)).2.2 rfl

/-- The characters of a number are simple. -/
theorem readDecimal_simple {isFloat : Bool} (chars : List Char) (lexer : Lexer) :
    ∀ c ∈ (readDecimal isFloat chars lexer).1, Simple c := by
  induction chars generalizing lexer isFloat with
  | nil => simp [readDecimal]
  | cons c chars ih =>
      unfold readDecimal
      split_ifs with digit point
      · exact List.forall_mem_cons.mpr ⟨simple_of_isDigit digit, ih _⟩
      · obtain rfl : c = '.' := by simp at point; exact point.1
        exact List.forall_mem_cons.mpr ⟨by decide, ih _⟩
      · simp

/-- A number is written in characters of one byte. -/
theorem moves_readNumber {first : Char} {startCol : Nat}
    (read : readNumber first startCol lexer = .ok (token, after)) :
    ∃ text, Moves lexer text after ∧ (∀ c ∈ text, Simple c) ∧ token.span =
      ⟨lexer.line, startCol, text.length + 1⟩ := by
  unfold readNumber at read
  dsimp only at read
  split at read
  next hex =>
    obtain ⟨tail, here⟩ := peek_eq_some_iff.mp hex.2
    have prefixed : Moves lexer ['x'] (lexer.past 'x' lexer.chars.tail) := by
      rw [here]
      exact moves_past here (by decide)
    have digits := @moves_readWhile (lexer.past 'x' lexer.chars.tail) _ Char.isHexDigit
      (by decide) rfl
    have simple : ∀ c ∈ (readWhile Char.isHexDigit (lexer.past 'x' lexer.chars.tail).chars
        (lexer.past 'x' lexer.chars.tail)).1, Simple c := fun c member =>
      simple_of_isIdentChar (isIdentChar_of_isHexDigit
        (List.all_eq_true.mp (readWhile_all _ _ _) c member))
    split at read
    · cases read
    · split at read <;> cases read
      exact ⟨_, prefixed.trans digits, List.forall_mem_cons.mpr ⟨by decide, simple⟩, rfl⟩
  next =>
    have digits := @moves_readDecimal lexer _ false rfl
    split at read
    · cases read
      exact ⟨_, digits, readDecimal_simple _ _, rfl⟩
    · split at read <;> cases read
      exact ⟨_, digits, readDecimal_simple _ _, rfl⟩

/-- An escape stands for a character of one byte. -/
theorem escaped_size {c' : Char} (stands : escaped c = some c') : c'.utf8Size = 1 ∧ c ≠ '\n' := by
  unfold escaped at stands
  split at stands <;> cases stands <;> decide

/-- A string literal up to its closing quote: every escape is longer than what it stands for. -/
theorem moves_readString {place : Span} {s : List Char} (here : lexer.chars = chars)
    (read : readString place chars lexer = .ok (s, after)) : ∃ text, Moves lexer text after ∧
      text.getLast? =
        some '"' ∧ byteLen s + 1 ≤ byteLen text ∧ (byteLen s + 1 = byteLen text ↔ '\\' ∉ text) := by
  fun_induction readString place chars lexer generalizing s with
  | case1 => cases read
  | case2 =>
      cases read
      exact ⟨['"'], moves_past here (by decide), by decide, by decide, by decide⟩
  | case3 => cases read
  | case4 c tail lexer _ c' escape =>
      rename_i ih
      obtain ⟨⟨s', after'⟩, later, same⟩ := Flow.bind_eq_ok_iff.mp read
      cases same
      obtain ⟨size, other⟩ := escaped_size escape
      obtain ⟨text, moves, last, le, whole⟩ := ih (past_chars _ _ _) later
      have both := (moves_past here (by decide)).trans (moves_past (past_chars _ _ _) other)
      have positive := c.utf8Size_pos
      have slash : '\\'.utf8Size = 1 := rfl
      refine ⟨_, both.trans moves, ?_, ?_, ?_⟩
      · simp [List.getLast?_cons, last]
      · simp only [List.cons_append, List.nil_append, byteLen_cons, size, slash]
        omega
      · refine iff_of_false ?_ (by simp)
        simp only [List.cons_append, List.nil_append, byteLen_cons, size, slash]
        omega
  | case5 => cases read
  | case6 => cases read
  | case7 c tail lexer quote last slash line ih =>
      obtain ⟨⟨s', after'⟩, later, same⟩ := Flow.bind_eq_ok_iff.mp read
      cases same
      obtain ⟨text, moves, ends, le, whole⟩ := ih (past_chars _ _ _) later
      have plain : c ≠ '\\' := by
        rintro rfl
        cases tail with
        | nil => exact last rfl rfl
        | cons d tail => exact slash d tail rfl rfl
      refine ⟨_, (moves_past here line).trans moves, ?_, ?_, ?_⟩
      · simp [List.getLast?_cons, ends]
      · simp only [List.singleton_append, byteLen_cons]
        omega
      · rw [List.singleton_append, List.mem_cons, not_or, ← whole, byteLen_cons, byteLen_cons,
          and_iff_right (Ne.symm plain)]
        omega

/-- The tokens other than layout, free text and the end of the file. -/
def Spanned : TokenKind → Prop
  | .rawText _ | .newline | .indent _ | .eof => False
  | _ => True

/-- Punctuation marks are simple. -/
theorem simple_of_punctuation {kind : TokenKind} (mark : punctuation c = some kind) :
    Simple c ∧ c ≠ '\n' := by
  unfold punctuation at mark
  split at mark <;> cases mark <;> decide

/-- What begins with a dash is moved over and covered by its span. -/
theorem moves_dashToken {line col : Nat} (inLine : lexer.line = line)
    (read : dashToken (fun len => ⟨line, col, len⟩) lexer = .ok (token, after)) :
    ∃ text, Moves lexer text after ∧ Covers line col ('-' :: text) token.span := by
  unfold dashToken at read
  split at read
  next arrow =>
    cases read
    exact ⟨_, moves_past arrow (by decide), @covers_of_simple ['-', '>'] line col
      (List.forall_mem_cons.mpr ⟨by decide, List.forall_mem_singleton.mpr (by decide)⟩)⟩
  · split at read
    · obtain ⟨text, moves, simple, span⟩ := moves_readNumber read
      rw [span, inLine]
      exact ⟨text, moves, covers_of_simple (List.forall_mem_cons.mpr ⟨by decide, simple⟩)⟩
    · cases read
      exact ⟨_, .refl, @covers_of_simple ['-'] line col (List.forall_mem_singleton.mpr (by decide))⟩
  · cases read
    exact ⟨_, .refl, @covers_of_simple ['-'] line col (List.forall_mem_singleton.mpr (by decide))⟩

/-- What begins with a quote is moved over and, where it can be, covered by its span. -/
theorem moves_quoteToken {line col : Nat}
    (read : quoteToken (fun len => ⟨line, col, len⟩) lexer = .ok (token, after)) :
    ∃ text, Moves lexer text after ∧ Covers line col ('"' :: text) token.span := by
  unfold quoteToken at read
  split at read
  · cases read
    exact ⟨_, .refl, @covers_of_simple ['"'] line col (List.forall_mem_singleton.mpr (by decide))⟩
  · split at read
    · cases read
    next s _ string =>
      obtain ⟨text, moves, last, le, whole⟩ := moves_readString rfl string
      cases read
      have quote : '"'.utf8Size = 1 := rfl
      refine ⟨text, moves, rfl, rfl, ?_, ?_, ?_⟩
      · rw [byteLen_cons, quote, utf8ByteSize_ofList, Nat.add_comm 1]
        exact Nat.succ_le_succ le
      · rw [List.mem_cons, not_or, ← whole, byteLen_cons, quote, utf8ByteSize_ofList,
          and_iff_right (by decide),
          Nat.add_comm 1]
        exact Nat.succ_inj
      · simp [List.getLast?_cons, last]

/-- The state after a word stands where the word ends. -/
theorem moves_afterWord {kind : TokenKind} {wasLineStart : Bool} (moves : Moves lexer text after) :
    Moves lexer text (afterWord kind wasLineStart after) := by
  unfold afterWord
  split <;> (try split) <;> exact ⟨moves.chars, moves.inLine, moves.line, moves.col⟩

/-- What is read of a token behind its first character. -/
theorem moves_charToken {line col : Nat} {wasLineStart : Bool} (inLine : lexer.line = line)
    (solid : c ≠ '\n')
    (read : charToken (fun len => ⟨line, col, len⟩) wasLineStart c lexer = .ok (token, after)) :
    ∃ text, Moves lexer text after ∧ (Spanned token.kind →
      Covers line col (c :: text) token.span) := by
  unfold charToken at read
  rw [if_neg solid] at read
  split at read
  next quote =>
    obtain ⟨text, moves, covers⟩ := moves_quoteToken read
    exact ⟨text, moves, fun _ => quote ▸ covers⟩
  · split at read
    next mark =>
      cases read
      exact ⟨_, .refl, fun _ => covers_of_simple (by simpa using (simple_of_punctuation mark).1)⟩
    · split_ifs at read with dash digit begins
      · obtain ⟨text, moves, covers⟩ := moves_dashToken inLine read
        exact ⟨text, moves, fun _ => dash ▸ covers⟩
      · obtain ⟨text, moves, simple, span⟩ := moves_readNumber read
        rw [span, inLine]
        exact ⟨text, moves, fun _ => covers_of_simple
          (List.forall_mem_cons.mpr ⟨simple_of_isDigit digit, simple⟩)⟩
      · have word := @moves_readWhile lexer _ isIdentChar (by decide) rfl
        have simple : ∀ x ∈ c :: (readWhile isIdentChar lexer.chars lexer).1, Simple x := by
          refine List.forall_mem_cons.mpr ⟨simple_of_isIdentChar ?_, fun x member =>
            simple_of_isIdentChar
            (List.all_eq_true.mp (readWhile_all _ _ _) x member)⟩
          simp only [isIdentStart, isIdentChar, Char.isAlphanum, Bool.or_eq_true] at begins ⊢
          tauto
        cases read
        refine ⟨_, moves_afterWord word, fun _ => ?_⟩
        · have covers := @covers_of_simple _ line col simple
          simpa [readIdentifier, Nat.add_comm] using covers
      · cases read
        exact ⟨_, .refl, fun spanned => spanned.elim⟩

/-- Where the characters of the next token start: behind the indentation and spaces. -/
def tokenStart (lexer : Lexer) : Lexer := lexer.opened.2.skipWhitespace

/-- Opening a line moves over its blanks. -/
theorem moves_opened : ∃ blanks, Moves lexer blanks lexer.opened.2 := by
  have blanks := @moves_readWhile lexer _ (fun c => c == ' ' || c == '\t') (by decide) rfl
  unfold opened
  split
  · refine ⟨(readWhile (fun c => c == ' ' || c == '\t') lexer.chars lexer).1, ?_⟩
    unfold readIndent
    dsimp only
    split
    · split <;> exact ⟨blanks.chars, blanks.inLine, blanks.line, blanks.col⟩
    · exact ⟨blanks.chars, blanks.inLine, blanks.line, blanks.col⟩
  · exact ⟨_, .refl⟩

/-- The start of a token lies behind what is skipped. -/
theorem moves_tokenStart : ∃ skipped, Moves lexer skipped lexer.tokenStart := by
  obtain ⟨blanks, opened⟩ := @moves_opened lexer
  exact ⟨_, opened.trans (moves_readWhile (by decide) rfl)⟩

/-- The lexer behind a token: in the same line, or behind the break that ends it. -/
def Passes (lexer after : Lexer) : Prop :=
  (∃ used, Moves lexer used after) ∨
    ∃ used mid rest, Moves lexer used mid ∧ mid.chars = '\n' :: rest ∧ after = mid.past '\n' rest

/-- The end of a line is passed in its place. -/
theorem passes_endOfLine (moves : Moves lexer text mid) (ends : ∀ c ∈ mid.chars.head?, c = '\n') :
    Passes lexer mid.endOfLine.2 := by
  unfold endOfLine
  split
  next => exact .inl ⟨_, moves⟩
  next c rest here =>
    obtain rfl : c = '\n' := ends c (by rw [here]; rfl)
    exact .inr ⟨_, mid, rest, moves, here, rfl⟩

/-- The token that ends a line has no text to cover. -/
theorem endOfLine_not_spanned : ¬ Spanned lexer.endOfLine.1.kind := by
  unfold endOfLine
  split <;> exact id

/-- What a step reads: a token that is no layout is read from its start on in one line. -/
theorem step_passes (read : lexer.step = .ok (token, after)) : Passes lexer after ∧
    (Spanned token.kind → ∃ text, text ≠ [] ∧ Moves lexer.tokenStart text after ∧
      Covers lexer.tokenStart.line lexer.tokenStart.col text token.span) := by
  unfold step at read
  rw [nextToken_eq] at read
  obtain ⟨skipped, start⟩ := @moves_tokenStart lexer
  obtain ⟨blanks, opened⟩ := @moves_opened lexer
  have widths (token : Token) : lexer.opened.1 = some token → ∃ width, token.kind =
    .indent width := opened_kind
  unfold tokenStart at start ⊢
  generalize lexer.opened = opening at read start opened widths ⊢
  rcases opening with ⟨_ | token', indented⟩
  · dsimp only at read start ⊢
    generalize indented.skipWhitespace = s at read start ⊢
    have ended {e : Lexer} {used : List Char} (moves : Moves lexer used e)
      (ends : ∀ c ∈ e.chars.head?, c = '\n')
        (done : e.endOfLine = (token, after)) : Passes lexer after ∧
          (Spanned token.kind → ∃ text, text ≠ [] ∧ Moves s text after ∧
            Covers s.line s.col text token.span) := by
      have passes := passes_endOfLine moves ends
      have layout := @endOfLine_not_spanned e
      rw [done] at passes layout
      exact ⟨passes, fun spanned => absurd spanned layout⟩
    split at read
    next text => exact ended start (by simp [text]) (Except.ok.inj read)
    next rest text =>
      have comment := start.trans ((moves_past text (by decide)).trans
        (@moves_readWhile (s.past '#' rest) rest (· != '\n') (by decide) (past_chars _ _ _)))
      refine ended comment (fun c member => ?_) (Except.ok.inj read)
      simpa using readWhile_stops _ _ _ (past_chars _ _ _) c member
    next c rest _ text =>
      by_cases line : c = '\n'
      · subst line
        obtain ⟨rfl, rfl⟩ := Prod.mk.inj (Except.ok.inj read)
        exact ⟨.inr ⟨_, s, rest, start, text, rfl⟩, fun spanned => spanned.elim⟩
      · have first := moves_past text line
        obtain ⟨behind, moves, covers⟩ := moves_charToken first.line line read
        exact ⟨.inl ⟨_, start.trans (first.trans moves)⟩, fun spanned =>
          ⟨c :: behind, by simp, first.trans moves, covers spanned⟩⟩
  · cases read
    obtain ⟨width, kind⟩ := widths token rfl
    exact ⟨.inl ⟨_, opened⟩, fun spanned => by rw [kind] at spanned; exact spanned.elim⟩

section Places

/-- The line and column behind a text. -/
structure StandsBehind (before : List Char) (lexer : Lexer) : Prop where
  line : lexer.line = before.count '\n' + 1
  col : lexer.col = (lineSoFar before).length + 1

/-- Moving over a text stands behind it. -/
theorem StandsBehind.moves (stands : StandsBehind before lexer) (moves : Moves lexer text after) :
    StandsBehind (before ++ text) after where
  line := by
    rw [moves.line, stands.line, List.count_append, List.count_eq_zero.mpr moves.inLine,
      Nat.add_zero]
  col := by
    rw [moves.col, stands.col, lineSoFar_append moves.inLine, List.length_append]
    omega

/-- Passing the line break stands at the start of the next line. -/
theorem StandsBehind.newline (stands : StandsBehind before lexer) :
    StandsBehind (before ++ ['\n']) (lexer.past '\n' rest) where
  line := by
    rw [List.count_append, past, if_pos rfl]
    exact congrArg (· + 1) stands.line
  col := by
    rw [lineSoFar_break, past, if_pos rfl]
    rfl

/-- Passing a part of the text stands behind it. -/
theorem StandsBehind.passes (stands : StandsBehind before lexer) (passes : Passes lexer after) :
    ∃ used, lexer.chars = used ++ after.chars ∧ StandsBehind (before ++ used) after := by
  rcases passes with ⟨used, moves⟩ | ⟨used, mid, rest, moves, here, rfl⟩
  · exact ⟨used, moves.chars, stands.moves moves⟩
  · refine ⟨used ++ ['\n'], ?_, ?_⟩
    · rw [moves.chars, here, past_chars, List.append_assoc]
      rfl
    · rw [← List.append_assoc]
      exact (stands.moves moves).newline

/-- What the lexer is after some tokens. -/
inductive Reaches : Lexer → Lexer → Prop where
  | refl {lexer : Lexer} : Reaches lexer lexer
  | step {lexer mid after : Lexer} {token : Token} (reaches : Reaches lexer mid)
      (read : mid.step = .ok (token, after)) : Reaches lexer after

/-- Every state the lexer reaches stands behind what it has read. -/
theorem Reaches.standsBehind (reaches : Reaches lexer after) (stands : StandsBehind before lexer) :
    ∃ used, lexer.chars = used ++ after.chars ∧ StandsBehind (before ++ used) after := by
  induction reaches with
  | refl => exact ⟨[], rfl, by simpa using stands⟩
  | step _ read ih =>
      obtain ⟨used, chars, behind⟩ := ih
      obtain ⟨more, chars', behind'⟩ := behind.passes (step_passes read).1
      exact ⟨used ++ more, by rw [chars, chars', List.append_assoc], by rwa [← List.append_assoc]⟩

end Places

end Lexer

end Sigil
