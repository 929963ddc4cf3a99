import Sigil.Parser

/-!
# Text the lexer reads

What the lexer makes of a piece of a line, given what may stand behind it. Pieces are put
together one after the other, or with a space between them.
-/

namespace Sigil

/-- The word of a keyword. -/
def Keyword.text (word : Keyword) : String :=
  ((keywords.find? fun entry => entry.2 = word).map fun entry => entry.1).getD ""

namespace Lexer

variable {lexer after : Lexer} {kind : TokenKind} {kinds kinds' : List TokenKind} {start : Bool}
  {text text' rest : List Char} {stop stop' : List Char → Prop} {c : Char}

/-- The lexer reads tokens of these kinds and stands before `after`. -/
inductive Reads : Lexer → List TokenKind → Lexer → Prop where
  | nil {lexer : Lexer} : Reads lexer [] lexer
  | cons {lexer mid after : Lexer} {token : Token} {kinds : List TokenKind}
      (read : ∀ steps, nextToken (steps + 1) lexer = .ok (token, mid)) (more : token.kind ≠ .eof)
      (shorter : mid.chars.length < lexer.chars.length) (rest : Reads mid kinds after) :
      Reads lexer (token.kind :: kinds) after

/-- Readings follow each other. -/
theorem Reads.append {mid : Lexer} (first : Reads lexer kinds mid)
    (second : Reads mid kinds' after) :
    Reads lexer (kinds ++ kinds') after := by
  induction first with
  | nil => exact second
  | cons read more shorter rest ih => exact .cons read more shorter (ih second)

/-- What was read is the beginning of the tokens of the text. -/
theorem Reads.tokens {token : Token} {eof : Lexer} (reads : Reads lexer kinds after)
    (last : ∀ steps, nextToken (steps + 1) after = .ok (token, eof)) (ended : token.kind = .eof)
    (steps : Nat) (enough : lexer.chars.length < steps) :
    ∃ read, lexer.tokens steps = .ok read ∧ read.map Token.kind = kinds ++ [.eof] := by
  induction reads generalizing steps with
  | nil =>
      obtain ⟨steps, rfl⟩ := Nat.exists_eq_add_of_lt (Nat.zero_lt_of_lt enough)
      refine ⟨[token], ?_, by simp [ended]⟩
      rw [Nat.zero_add, Lexer.tokens, last]
      simp [bind, Except.bind, ended]
  | cons read more shorter rest ih =>
      obtain ⟨steps, rfl⟩ := Nat.exists_eq_add_of_lt (Nat.zero_lt_of_lt enough)
      obtain ⟨later, done, spelled⟩ := ih last steps (by omega)
      refine ⟨_ :: later, ?_, congrArg (_ :: ·) spelled⟩
      rw [Nat.zero_add, Lexer.tokens, read]
      simp [bind, Except.bind, more, done]

/-- In front of anything that may follow it the text is read as tokens of these kinds; `start`
says whether it begins a line. -/
def Scans (start : Bool) (text : List Char) (kinds : List TokenKind) (stop : List Char → Prop) :
    Prop :=
  ∀ (lexer : Lexer) (rest : List Char), lexer.chars = text ++ rest → lexer.atLineStart = start →
    lexer.inDescription = false → stop rest →
    ∃ after, Reads lexer kinds after ∧ after.chars = rest ∧ after.atLineStart = false ∧
      after.inDescription = false

/-- The empty text scans as nothing. -/
theorem Scans.nil : Scans false [] [] stop :=
  fun lexer _ here line outside _ => ⟨lexer, .nil, here, line, outside⟩

/-- Texts scan one after the other when the first ends in front of the second. -/
theorem Scans.append (first : Scans start text kinds stop) (second : Scans false text' kinds' stop')
    (meets : ∀ rest, stop' rest → stop (text' ++ rest)) :
    Scans start (text ++ text') (kinds ++ kinds') stop' := by
  intro lexer rest here line outside follows
  rw [List.append_assoc] at here
  obtain ⟨mid, reads, there, line', outside'⟩ :=
    first lexer _ here line outside (meets rest follows)
  obtain ⟨after, reads', done, line'', outside''⟩ := second mid rest there line' outside' follows
  exact ⟨after, reads.append reads', done, line'', outside''⟩

/-- A text that scans in front of more scans in front of less. -/
theorem Scans.mono (scans : Scans start text kinds stop) (weaker : ∀ rest, stop' rest → stop rest) :
    Scans start text kinds stop' :=
  fun lexer rest here line outside follows =>
    scans lexer rest here line outside (weaker rest follows)

/-- A character that is not skipped in front of a token. -/
def Solid (c : Char) : Prop := c ≠ ' ' ∧ c ≠ '\t' ∧ c ≠ '\r' ∧ c ≠ '#'

/-- Passing a character inside a line moves one column on. -/
theorem past_eq (notNewline : c ≠ '\n') :
    lexer.past c rest = { lexer with chars := rest, col := lexer.col + 1 } := if_neg notNewline

/-- Passing a character leaves the rest. -/
@[simp] theorem past_chars (lexer : Lexer) (c : Char) (rest : List Char) :
    (lexer.past c rest).chars = rest := by
  unfold past
  split <;> rfl

/-- Passing a character keeps the mode. -/
@[simp] theorem past_inDescription : (lexer.past c rest).inDescription = lexer.inDescription := by
  unfold past
  split <;> rfl

/-- A token starts with the first character that is not skipped. -/
theorem nextToken_solid (here : lexer.chars = c :: rest) (solid : Solid c) (steps : Nat) :
    nextToken (steps + 1) lexer = charToken (fun len => ⟨lexer.line, lexer.col, len⟩)
      lexer.atLineStart c
      ({ lexer with atLineStart := false }.past c rest) := by
  obtain ⟨space, tab, cr, hash⟩ := solid
  obtain ⟨_, line, col, lineStart, inDescription⟩ := lexer
  obtain rfl : _ = c :: rest := here
  let start : Lexer := ⟨c :: rest, line, col, false, inDescription⟩
  have indented : (if lineStart then readIndent ⟨c :: rest, line, col, lineStart, inDescription⟩
      else (none, ⟨c :: rest, line, col, lineStart, inDescription⟩)) = (none, start) := by
    cases lineStart with
    | false => rfl
    | true => simp [readIndent, readWhile, space, tab, peek, start]
  have skipped : start.skipWhitespace = start := by
    simp [skipWhitespace, readWhile, space, tab, cr, start]
  unfold nextToken
  rw [indented]
  dsimp only
  rw [skipped]
  dsimp only [start]
  split
  next ended => cases ended
  next comment =>
    obtain ⟨same, _⟩ := List.cons.inj comment
    exact absurd same hash
  next same =>
    obtain ⟨rfl, rfl⟩ := List.cons.inj same
    rfl

/-- Inside a line a space in front of a token is skipped. -/
theorem nextToken_space (here : lexer.chars = ' ' :: rest) (inLine : lexer.atLineStart = false)
    (steps : Nat) :
    nextToken (steps + 1) lexer = nextToken (steps + 1) (lexer.past ' ' rest) := by
  obtain ⟨_, line, col, _, inDescription⟩ := lexer
  obtain rfl : _ = ' ' :: rest := here
  obtain rfl : _ = false := inLine
  rfl

/-- A blank in front does not change what a text scans as. -/
theorem Scans.space (scans : Scans false text (kind :: kinds) stop) :
    Scans false (' ' :: text) (kind :: kinds) stop := by
  intro lexer rest here line outside follows
  have skipped : (lexer.past ' ' (text ++ rest)).atLineStart = false := by
    rw [past_eq (by decide)]
    exact line
  obtain ⟨after, reads, done⟩ := scans (lexer.past ' ' (text ++ rest)) rest (past_chars _ _ _)
    skipped
    (past_inDescription.trans outside) follows
  refine ⟨after, ?_, done⟩
  generalize same : kind :: kinds = all at reads
  cases reads with
  | nil => cases same
  | cons read more shorter later =>
      refine .cons (fun steps => ?_) more ?_ later
      · rw [nextToken_space here line]
        exact read steps
      · rw [past_chars] at shorter
        rw [here]
        exact Nat.lt_succ_of_lt shorter

/-- A token that starts with a solid character. -/
theorem Scans.token {tail : List Char} (solid : Solid c) (more : kind ≠ .eof)
    (reads : ∀ (here : Nat → Span) (lexer : Lexer) (rest : List Char), lexer.chars = tail ++ rest →
      lexer.atLineStart = false → lexer.inDescription = false → stop rest →
      ∃ span after, charToken here start c lexer = .ok (⟨kind, span⟩, after) ∧ after.chars = rest ∧
        after.atLineStart = false ∧ after.inDescription = false) (line : c ≠ '\n') :
    Scans start (c :: tail) [kind] stop := by
  intro lexer rest here lineStart outside follows
  obtain ⟨span, after, read, there, done⟩ := reads (fun len => ⟨lexer.line, lexer.col, len⟩)
    ({ lexer with atLineStart := false }.past c (tail ++ rest)) rest (past_chars _ _ _)
    (by rw [past_eq line]) (by rw [past_inDescription]; exact outside) follows
  have token (steps : Nat) : nextToken (steps + 1) lexer = .ok (⟨kind, span⟩, after) := by
    rw [nextToken_solid here solid, lineStart]
    exact read
  refine ⟨after, .cons token more ?_ .nil, there, done⟩
  rw [there, here]
  simp only [List.cons_append, List.length_cons, List.length_append]
  omega

section Pieces

variable {p : Char → Bool} {read : List Char}

/-- What a test lets through is read up to a character that it stops at. -/
theorem readWhile_append (inside : read.all p) (boundary : ∀ c ∈ rest.head?, p c = false)
    (oneLine : '\n' ∉ read) (here : lexer.chars = read ++ rest) :
    ∃ after, readWhile p lexer.chars lexer = (read, after) ∧ after.chars = rest ∧
      after.atLineStart = lexer.atLineStart ∧ after.inDescription = lexer.inDescription := by
  rw [here]
  induction read generalizing lexer with
  | nil =>
      refine ⟨lexer, ?_, here, rfl, rfl⟩
      cases rest with
      | nil => rfl
      | cons c tail => simp [readWhile, boundary c rfl]
  | cons c read ih =>
      obtain ⟨passes, inside⟩ := Bool.and_eq_true_iff.mp inside
      obtain ⟨other, oneLine⟩ := not_or.mp (List.mem_cons.not.mp oneLine)
      obtain ⟨after, reads, there, line, outside⟩ :=
        ih inside oneLine (past_chars lexer c (read ++ rest))
      refine ⟨after, ?_, there, ?_, outside.trans past_inDescription⟩
      · simp [readWhile, passes, reads]
      · rw [line, past_eq (Ne.symm other)]

end Pieces

/-- No character that an identifier continues with. -/
def EndsWord (rest : List Char) : Prop := ∀ c ∈ rest.head?, isIdentChar c = false

/-- A text that passes a test the line break fails has no line break. -/
theorem not_newline_of_all {p : Char → Bool} (inside : text.all p) (fails : p '\n' = false) :
    '\n' ∉ text := by
  intro member
  have passes := List.all_eq_true.mp inside _ member
  rw [fails] at passes
  cases passes

/-- A character that begins an identifier is not skipped and begins nothing else. -/
theorem isIdentStart_cases (begins : isIdentStart c) :
    Solid c ∧ c ≠ '\n' ∧ c ≠ '"' ∧ punctuation c = none ∧ c ≠ '-' ∧ c.isDigit = false := by
  have inside : isIdentChar c := by
    simp only [isIdentStart, Bool.or_eq_true] at begins
    simp only [isIdentChar, Char.isAlphanum, Bool.or_eq_true]
    exact .inl (begins.imp_left .inl)
  have skipped := forall_isIdentChar
    (P := fun c => isIdentStart c → c ≠ ' ' ∧ c ≠ '\t' ∧ c ≠ '\r' ∧ c ≠ '#') (by decide) inside
      begins
  have other := forall_isIdentChar (P := fun c => isIdentStart c → c ≠ '\n' ∧ c ≠ '"' ∧
    (punctuation c).isNone ∧ c ≠ '-' ∧ c.isDigit = false) (by decide) inside begins
  rw [Option.isNone_iff_eq_none] at other
  exact ⟨skipped, other⟩

/-- A word of identifier characters scans as its keyword or identifier. -/
theorem Scans.word {name : List Char} (begins : isIdentStart c) (continues : name.all isIdentChar)
    (plain : keywordOrIdent (String.ofList (c :: name)) ≠ .keyword .description) :
    Scans start (c :: name) [keywordOrIdent (String.ofList (c :: name))] EndsWord := by
  obtain ⟨solid, newline, quote, mark, dash, digit⟩ := isIdentStart_cases begins
  refine .token solid ?_ (fun here lexer rest chars line outside follows => ?_) newline
  · unfold keywordOrIdent
    split <;> simp
  · obtain ⟨after, reads, there, line', outside'⟩ := readWhile_append continues follows
      (not_newline_of_all continues (by decide)) chars
    refine ⟨here (String.ofList (c :: name)).length,
      afterWord (keywordOrIdent (String.ofList (c :: name))) start after, ?_, ?_⟩
    · simp only [charToken, newline, if_false, quote, mark, dash, digit, Bool.false_eq_true, begins,
        if_true, readIdentifier, reads]
    · unfold afterWord
      split
      next same => exact absurd same plain
      all_goals (try split) <;> simp_all

/-- A name that is no keyword. -/
theorem scans_identifier {name : String} (ident : IsIdentifier name) :
    Scans start name.toList [.identifier name] EndsWord := by
  obtain ⟨⟨first, rest, text, begins, continues⟩, unreserved⟩ := ident
  have same : String.ofList (first :: rest) = name := by rw [← text, String.ofList_toList]
  have kind : keywordOrIdent name = .identifier name := by
    unfold keywordOrIdent
    rw [unreserved]
  have word : Scans start (first :: rest) [keywordOrIdent (String.ofList (first :: rest))]
    EndsWord :=
    .word begins continues (by rw [same, kind]; simp)
  rwa [same, kind, ← text] at word

/-- Every keyword is in the table. -/
theorem keyword_known (word : Keyword) : word ∈ keywords.map Prod.snd := by
  cases word with
  | guarantee listed => cases listed <;> decide
  | typ typ => cases typ <;> decide
  | atomicRmw op => cases op <;> decide
  | intArith op => cases op <;> decide
  | intCmp op => cases op <;> decide
  | floatArith op => cases op <;> decide
  | floatCmp op => cases op <;> decide
  | bitwise op => cases op <;> decide
  | _ => decide

/-- The text of every keyword is a word that the table gives back. -/
theorem keyword_text : ∀ entry ∈ keywords, keywordOrIdent entry.2.text = .keyword entry.2 ∧
    (entry.2.text.toList.head?.all isIdentStart ∧ entry.2.text.toList.tail.all isIdentChar ∧
      entry.2.text.toList ≠ []) := by
  decide +kernel

/-- The text of a keyword scans as that keyword. -/
theorem scans_keyword {word : Keyword} (inside : word ≠ .description) :
    Scans start word.text.toList [.keyword word] EndsWord := by
  obtain ⟨entry, member, rfl⟩ := List.mem_map.mp (keyword_known word)
  obtain ⟨kind, begins, continues, filled⟩ := keyword_text entry member
  obtain ⟨first, later, text⟩ := List.exists_cons_of_ne_nil filled
  rw [text] at begins continues ⊢
  have whole : String.ofList (first :: later) = entry.2.text := by rw [← text, String.ofList_toList]
  have scanned : Scans start (first :: later) [keywordOrIdent (String.ofList (first :: later))]
    EndsWord :=
    .word (by simpa using begins) continues (by rw [whole, kind]; simpa using inside)
  rwa [whole, kind] at scanned

/-- A punctuation mark scans as its token. -/
theorem Scans.mark (mark : punctuation c = some kind) : Scans start [c] [kind] (fun _ => True) := by
  have known := mark
  unfold punctuation at known
  have other : Solid c ∧ c ≠ '\n' ∧ c ≠ '"' ∧ kind ≠ .eof := by
    unfold Solid
    split at known <;> cases known <;> simp
  refine .token other.1 other.2.2.2 (fun here lexer rest chars line outside _ => ?_) other.2.1
  refine ⟨here 1, lexer, ?_, chars, line, outside⟩
  simp only [charToken, other.2.1, other.2.2.1, if_false, mark]

section Numbers

variable {digits : List Char} {n : BitVec 64}

/-- No character that a number continues with. -/
def EndsNumber (rest : List Char) : Prop := ∀ c ∈ rest.head?, c.isDigit = false ∧ c ≠ '.' ∧ c ≠ 'x'

/-- Digits are read up to a character that is neither one nor a point still to come. -/
theorem readDecimal_append (isFloat : Bool) (inside : digits.all Char.isDigit)
    (boundary : ∀ c ∈ rest.head?, c.isDigit = false ∧ (c = '.' → isFloat))
      (here : lexer.chars = digits ++ rest) :
    ∃ after, readDecimal isFloat lexer.chars lexer = (digits, isFloat, after) ∧ after.chars = rest ∧
      after.atLineStart = lexer.atLineStart ∧ after.inDescription = lexer.inDescription := by
  rw [here]
  induction digits generalizing lexer with
  | nil =>
      refine ⟨lexer, ?_, here, rfl, rfl⟩
      cases rest with
      | nil => rfl
      | cons c tail =>
          obtain ⟨digit, point⟩ := boundary c rfl
          simpa [readDecimal, digit] using point
  | cons c digits ih =>
      obtain ⟨digit, inside⟩ := Bool.and_eq_true_iff.mp inside
      have other : c ≠ '\n' := by
        rintro rfl
        cases digit
      obtain ⟨after, reads, there, line, outside⟩ := ih inside (past_chars lexer c (digits ++ rest))
      refine ⟨after, ?_, there, ?_, outside.trans past_inDescription⟩
      · simp [readDecimal, digit, reads]
      · rw [line, past_eq other]

/-- Digits, a point and digits. -/
theorem readDecimal_point {frac : List Char} (inside : digits.all Char.isDigit)
    (inside' : frac.all Char.isDigit)
    (boundary : ∀ c ∈ rest.head?, c.isDigit = false)
      (here : lexer.chars = digits ++ '.' :: (frac ++ rest)) :
    ∃ after, readDecimal false lexer.chars lexer = (digits ++ '.' :: frac, true, after) ∧
      after.chars = rest ∧
      after.atLineStart = lexer.atLineStart ∧ after.inDescription = lexer.inDescription := by
  rw [here]
  induction digits generalizing lexer with
  | nil =>
      obtain ⟨after, reads, there, line, outside⟩ := readDecimal_append true inside'
        (fun c member => ⟨boundary c member, fun _ => rfl⟩) (past_chars lexer '.' (frac ++ rest))
      rw [past_chars] at reads
      refine ⟨after, ?_, there, ?_, outside.trans past_inDescription⟩
      · simp [readDecimal, reads, show Char.isDigit '.' = false from rfl]
      · rw [line, past_eq (by decide)]
  | cons c digits ih =>
      obtain ⟨digit, inside⟩ := Bool.and_eq_true_iff.mp inside
      have other : c ≠ '\n' := by
        rintro rfl
        cases digit
      obtain ⟨after, reads, there, line, outside⟩ :=
        ih inside (past_chars lexer c (digits ++ '.' :: (frac ++ rest)))
      refine ⟨after, ?_, there, ?_, outside.trans past_inDescription⟩
      · simp [readDecimal, digit, reads]
      · rw [line, past_eq other]

/-- A decimal digit is not skipped and begins a number. -/
theorem isDigit_cases (digit : c.isDigit) :
    Solid c ∧ c ≠ '\n' ∧ c ≠ '"' ∧ punctuation c = none ∧ c ≠ '-' ∧ c ≠ 'x' ∧ c ≠ '>' := by
  have inside := isIdentChar_of_isDigit digit
  have skipped := forall_isIdentChar
    (P := fun c => c.isDigit → c ≠ ' ' ∧ c ≠ '\t' ∧ c ≠ '\r' ∧ c ≠ '#') (by decide) inside digit
  have other := forall_isIdentChar (P := fun c => c.isDigit → c ≠ '\n' ∧ c ≠ '"' ∧
    (punctuation c).isNone) (by decide) inside digit
  have sign := forall_isIdentChar (P := fun c => c.isDigit → c ≠ '-' ∧ c ≠ 'x' ∧ c ≠ '>')
    (by decide)
    inside digit
  rw [Option.isNone_iff_eq_none] at other
  exact ⟨skipped, other.1, other.2.1, other.2.2, sign⟩

/-- Decimal digits without the prefix `0x`. -/
theorem readNumber_decimal {first : Char} (startCol : Nat) (inside : digits.all Char.isDigit)
    (follows : EndsNumber rest) (value : parseDecimal (first :: digits) = some n)
    (here : lexer.chars = digits ++ rest) : ∃ span after,
    readNumber first startCol lexer = .ok (⟨.integer n, span⟩, after) ∧ after.chars = rest ∧
      after.atLineStart = lexer.atLineStart ∧ after.inDescription = lexer.inDescription := by
  obtain ⟨after, reads, done⟩ := readDecimal_append false inside
    (fun c member => ⟨(follows c member).1, fun point => absurd point (follows c member).2.1⟩) here
  have noPrefix : ¬ (first = '0' ∧ lexer.peek = some 'x') := by
    rintro ⟨-, next⟩
    rw [peek, here] at next
    cases digits with
    | nil => exact (follows 'x' next).2.2 rfl
    | cons d digits =>
        obtain rfl := Option.some.inj next
        exact absurd (Bool.and_eq_true_iff.mp inside).1 (by decide)
  refine ⟨⟨lexer.line, startCol, (first :: digits).length⟩, after, ?_, done⟩
  simp [readNumber, noPrefix, reads, value]

/-- Digits scan as the number they stand for. -/
theorem Scans.number (digit : c.isDigit) (inside : digits.all Char.isDigit)
    (value : parseDecimal (c :: digits) = some n) :
      Scans start (c :: digits) [.integer n] EndsNumber := by
  obtain ⟨solid, newline, quote, mark, dash, _⟩ := isDigit_cases digit
  refine .token solid (by simp) (fun here lexer rest chars line outside follows => ?_) newline
  obtain ⟨span, after, read, there, line', outside'⟩ :=
    readNumber_decimal (here 0).col inside follows value chars
  refine ⟨span, after, ?_, there, line'.trans line, outside'.trans outside⟩
  simp only [charToken, newline, if_false, quote, mark, dash, digit, if_true, read]

/-- A dash in front of a digit begins a number. -/
theorem dashToken_digit {here : Nat → Span} (digit : c.isDigit) (chars : lexer.chars = c :: rest) :
    dashToken here lexer = readNumber '-' (here 0).col lexer := by
  obtain ⟨-, -, -, -, -, -, arrow⟩ := isDigit_cases digit
  unfold dashToken
  rw [chars]
  split
  next same => exact absurd (List.cons.inj same).1 arrow
  next same =>
    obtain ⟨rfl, -⟩ := List.cons.inj same
    rw [if_pos digit]
  next same => cases same

/-- A number behind a minus sign. -/
theorem Scans.negative (digit : c.isDigit) (inside : digits.all Char.isDigit)
    (value : parseDecimal ('-' :: c :: digits) = some n) :
    Scans start ('-' :: c :: digits) [.integer n] EndsNumber := by
  have all : (c :: digits).all Char.isDigit := Bool.and_eq_true_iff.mpr ⟨digit, inside⟩
  refine .token (by unfold Solid; decide) (by simp)
    (fun here lexer rest chars line outside follows => ?_) (by decide)
  obtain ⟨span, after, read, there, line', outside'⟩ :=
    readNumber_decimal (here 0).col all follows value chars
  refine ⟨span, after, ?_, there, line'.trans line, outside'.trans outside⟩
  have dashed : dashToken here lexer = readNumber '-' (here 0).col lexer :=
    dashToken_digit digit chars
  rw [charToken, if_neg (by decide), if_neg (by decide), show punctuation '-' = none from rfl]
  exact dashed.trans read

end Numbers

/-- At the end of the text. -/
theorem nextToken_end (here : lexer.chars = []) : ∃ token eof, token.kind = .eof ∧
    ∀ steps, nextToken (steps + 1) lexer = .ok (token, eof) := by
  obtain ⟨_, line, col, lineStart, inDescription⟩ := lexer
  obtain rfl : _ = [] := here
  cases lineStart <;> exact ⟨_, _, rfl, fun _ => rfl⟩

/-- A scanned text is lexed to its tokens and the end of the file. -/
theorem Scans.lex {source : String} (scans : Scans true source.toList kinds stop) (ends : stop [])
    (noMark : ∀ c ∈ source.toList.head?, c ≠ '\uFEFF') :
    ∃ read, Sigil.lex source = .ok read ∧ read.map Token.kind = kinds ++ [.eof] := by
  have opened : Lexer.new source = { chars := source.toList } := by
    unfold Lexer.new
    split
    next rest same => exact absurd rfl (noMark '\uFEFF' (by rw [same]; rfl))
    next => rfl
  obtain ⟨after, reads, there, -⟩ := scans { chars := source.toList } [] (by simp) rfl rfl ends
  obtain ⟨token, eof, ended, last⟩ := nextToken_end there
  have read := reads.tokens last ended (source.toList.length + 1) (Nat.lt_succ_self _)
  unfold Sigil.lex
  rwa [opened]

end Lexer

end Sigil
