import Sigil.Ast

/-!
# Lexer

Source text to tokens, each with the place it stands at. An integer token is a 64-bit
word; a token of a number with a point keeps the text it was read from.
-/

namespace Sigil

/-- Line and column a token starts at, and its length. -/
structure Span where
  line : Nat
  col : Nat
  len : Nat
  deriving DecidableEq, Repr

/-- An error of the lexer and its place. -/
structure LexError where
  span : Span
  message : String
  deriving DecidableEq, Repr

/-- Reserved words. `endBehavior` is `END`. -/
inductive Keyword where
  | behavior | description | contract | hash | implementation | composition | native
  | endBehavior | pattern | endPattern | onCreate | onDestroy | library | endLibrary
  | executable | endExecutable | entry | uses | memory | scope | endScope
  | input | output | requires | guarantees
  | guarantee (guarantee : Guarantee)
  | typ (typ : AstType)
  | label | branch | jump
  | call | set | discard
  | spawn | wait | waitAll | waitAny | channel | channelSend | channelReceive | channelClose
  | shared
  | alloc | load | store | free
  | atomicLoad | atomicStore | cas | atomicRmw (op : AtomicRmw)
  | intArith (op : IntArith) | ineg | intCmp (op : Comparison)
  | floatArith (op : FloatArith) | fneg | floatCmp (op : Comparison)
  | ftoi | itof
  | bitwise (op : Bitwise) | not
  deriving DecidableEq, Repr

/-- The kinds of tokens. -/
inductive TokenKind where
  | keyword (word : Keyword)
  | integer (n : BitVec 64)
  | floatLit (text : String)
  | stringLit (s : String)
  | identifier (name : String)
  | equals
  | arrow
  | dot
  | atSign
  | comma
  | colon
  | leftBracket
  | rightBracket
  | rawText (text : String)
  | newline
  | indent (width : Nat)
  | eof
  deriving DecidableEq, Repr

/-- A token and its place. -/
structure Token where
  kind : TokenKind
  span : Span
  deriving DecidableEq, Repr

def keywords : List (String × Keyword) :=
  [("BEHAVIOR", .behavior), ("DESCRIPTION", .description), ("CONTRACT", .contract),
    ("HASH", .hash), ("IMPLEMENTATION", .implementation), ("COMPOSITION", .composition),
    ("NATIVE", .native), ("END", .endBehavior), ("PATTERN", .pattern),
    ("END_PATTERN", .endPattern), ("ON_CREATE", .onCreate), ("ON_DESTROY", .onDestroy),
    ("LIBRARY", .library), ("END_LIBRARY", .endLibrary), ("EXECUTABLE", .executable),
    ("END_EXECUTABLE", .endExecutable), ("ENTRY", .entry), ("USES", .uses),
    ("MEMORY", .memory), ("SCOPE", .scope), ("END_SCOPE", .endScope),
    ("INPUT", .input), ("OUTPUT", .output), ("REQUIRES", .requires),
    ("GUARANTEES", .guarantees),
    ("pure", .guarantee .pure), ("no_alloc", .guarantee .noAlloc),
    ("writes_output", .guarantee .writesOutput),
    ("int", .typ .int), ("float", .typ .float), ("bytes", .typ .bytes), ("string", .typ .string),
    ("LABEL", .label), ("BRANCH", .branch), ("JUMP", .jump),
    ("CALL", .call), ("SET", .set), ("DISCARD", .discard),
    ("SPAWN", .spawn), ("WAIT", .wait), ("WAIT_ALL", .waitAll), ("WAIT_ANY", .waitAny),
    ("CHANNEL", .channel), ("CHANNEL_SEND", .channelSend),
    ("CHANNEL_RECEIVE", .channelReceive), ("CHANNEL_CLOSE", .channelClose),
    ("SHARED", .shared),
    ("ALLOC", .alloc), ("LOAD", .load), ("STORE", .store), ("FREE", .free),
    ("ATOMIC_LOAD", .atomicLoad), ("ATOMIC_STORE", .atomicStore), ("CAS", .cas),
    ("ATOMIC_ADD", .atomicRmw .add), ("ATOMIC_SUB", .atomicRmw .sub),
    ("IADD", .intArith .add), ("ISUB", .intArith .sub), ("IMUL", .intArith .mul),
    ("IDIV", .intArith .div), ("IMOD", .intArith .mod), ("INEG", .ineg),
    ("IEQ", .intCmp .eq), ("INE", .intCmp .ne), ("ILT", .intCmp .lt), ("IGT", .intCmp .gt),
    ("ILE", .intCmp .le), ("IGE", .intCmp .ge),
    ("FADD", .floatArith .add), ("FSUB", .floatArith .sub), ("FMUL", .floatArith .mul),
    ("FDIV", .floatArith .div), ("FNEG", .fneg),
    ("FEQ", .floatCmp .eq), ("FNE", .floatCmp .ne), ("FLT", .floatCmp .lt),
    ("FGT", .floatCmp .gt), ("FLE", .floatCmp .le), ("FGE", .floatCmp .ge),
    ("FTOI", .ftoi), ("ITOF", .itof),
    ("AND", .bitwise .and), ("OR", .bitwise .or), ("XOR", .bitwise .xor), ("NOT", .not),
    ("SHL", .bitwise .shl), ("SHR", .bitwise .shr), ("SAR", .bitwise .sar)]

/-- A keyword, or an identifier. -/
def keywordOrIdent (ident : String) : TokenKind :=
  match keywords.lookup ident with
  | some word => .keyword word
  | none => .identifier ident

/-- A character an identifier may continue with. -/
def isIdentChar (c : Char) : Bool := c.isAlphanum || c == '_' || c == '-'

/-- A character an identifier may start with. -/
def isIdentStart (c : Char) : Bool := c.isAlpha || c == '_'

/-- A name the lexer reads as one identifier. -/
def IsIdentifier (name : String) : Prop :=
  (∃ first rest, name.toList = first :: rest ∧ isIdentStart first ∧ rest.all isIdentChar) ∧
    keywords.lookup name = none

/-- The text still to read and the place it starts at. -/
structure Lexer where
  chars : List Char
  line : Nat := 1
  col : Nat := 1
  atLineStart : Bool := true
  inDescription : Bool := false
  deriving DecidableEq, Repr

namespace Lexer

/-- A leading byte-order mark is not read. -/
def new (source : String) : Lexer :=
  match source.toList with
  | '\uFEFF' :: rest => { chars := rest }
  | chars => { chars }

def peek (lexer : Lexer) : Option Char := lexer.chars.head?

/-- Past one character, `rest` being what follows it. -/
def past (lexer : Lexer) (c : Char) (rest : List Char) : Lexer :=
  if c = '\n' then
    { lexer with chars := rest, line := lexer.line + 1, col := 1, atLineStart := true }
  else { lexer with chars := rest, col := lexer.col + 1 }

/-- The characters up to the first that fails a test. -/
def readWhile (p : Char → Bool) : List Char → Lexer → List Char × Lexer
  | [], lexer => ([], lexer)
  | c :: rest, lexer =>
      if p c then
        let (read, lexer) := readWhile p rest (lexer.past c rest)
        (c :: read, lexer)
      else ([], lexer)

def skipWhitespace (lexer : Lexer) : Lexer :=
  (readWhile (fun c => c == ' ' || c == '\t' || c == '\r') lexer.chars lexer).2

def readIdentifier (first : Char) (lexer : Lexer) : String × Lexer :=
  let (rest, lexer) := readWhile isIdentChar lexer.chars lexer
  (String.ofList (first :: rest), lexer)

/-- Decimal digits with at most one point, and whether there was one. -/
def readDecimal : Bool → List Char → Lexer → List Char × Bool × Lexer
  | isFloat, [], lexer => ([], isFloat, lexer)
  | isFloat, c :: rest, lexer =>
      if c.isDigit then
        let (read, isFloat, lexer) := readDecimal isFloat rest (lexer.past c rest)
        (c :: read, isFloat, lexer)
      else if c == '.' && !isFloat then
        let (read, isFloat, lexer) := readDecimal true rest (lexer.past c rest)
        (c :: read, isFloat, lexer)
      else ([], isFloat, lexer)

/-- The value of a hexadecimal digit. -/
def hexValue (c : Char) : Nat :=
  if c.isDigit then c.toNat - '0'.toNat else c.toLower.toNat - 'a'.toNat + 10

/-- Hexadecimal digits as a word, if they fit one. -/
def parseHex (digits : List Char) : Option (BitVec 64) :=
  let n := digits.foldl (fun n c => 16 * n + hexValue c) 0
  if n < 2 ^ 64 then some (BitVec.ofNat 64 n) else none

/-- Decimal text as a signed word, if it fits one. -/
def parseDecimal : List Char → Option (BitVec 64)
  | '-' :: digits =>
      let n := Nat.ofDigitChars 10 digits 0
      if n ≤ 2 ^ 63 then some (-BitVec.ofNat 64 n) else none
  | digits =>
      let n := Nat.ofDigitChars 10 digits 0
      if n < 2 ^ 63 then some (BitVec.ofNat 64 n) else none

def readNumber (first : Char) (startCol : Nat) (lexer : Lexer) : Except LexError (Token × Lexer) :=
  let startLine := lexer.line
  if first = '0' ∧ lexer.peek = some 'x' then
    let lexer := lexer.past 'x' lexer.chars.tail
    let (digits, lexer) := readWhile Char.isHexDigit lexer.chars lexer
    let span : Span := ⟨startLine, startCol, digits.length + 2⟩
    if digits = [] then .error ⟨span, "Expected hex digits after 0x"⟩
    else match parseHex digits with
      | some n => .ok (⟨.integer n, span⟩, lexer)
      | none => .error ⟨span, "Invalid hex literal: 0x" ++ String.ofList digits⟩
  else
    let (digits, isFloat, lexer) := readDecimal false lexer.chars lexer
    let num := first :: digits
    let span : Span := ⟨startLine, startCol, num.length⟩
    if isFloat then .ok (⟨.floatLit (String.ofList num), span⟩, lexer)
    else match parseDecimal num with
      | some n => .ok (⟨.integer n, span⟩, lexer)
      | none => .error ⟨span, "Invalid integer literal: " ++ String.ofList num⟩

/-- What an escape stands for. -/
def escaped : Char → Option Char
  | 'n' => some '\n'
  | 'r' => some '\r'
  | 't' => some '\t'
  | '\\' => some '\\'
  | '"' => some '"'
  | _ => none

/-- A string literal up to its closing quote; `start` is the place of the opening one. -/
def readString (start : Span) : List Char → Lexer → Except LexError (List Char × Lexer)
  | [], _ => .error ⟨start, "Unterminated string literal"⟩
  | '"' :: rest, lexer => .ok ([], lexer.past '"' rest)
  | ['\\'], _ => .error ⟨start, "Unterminated string literal"⟩
  | '\\' :: c :: rest, lexer =>
      let lexer := (lexer.past '\\' (c :: rest)).past c rest
      match escaped c with
      | some c => do
          let (s, lexer) ← readString start rest lexer
          .ok (c :: s, lexer)
      | none => .error ⟨⟨lexer.line, lexer.col - 1, 2⟩,
          "Invalid escape sequence: \\" ++ String.singleton c⟩
  | '\n' :: _, _ => .error ⟨start, "Unterminated string literal (newline in string)"⟩
  | c :: rest, lexer => do
      let (s, lexer) ← readString start rest (lexer.past c rest)
      .ok (c :: s, lexer)

/-- The indentation of a line, if something other than a comment follows it. -/
def readIndent (lexer : Lexer) : Option Token × Lexer :=
  let startCol := lexer.col
  let (blanks, lexer) := readWhile (fun c => c == ' ' || c == '\t') lexer.chars lexer
  let indent := (blanks.map fun c => if c = ' ' then 1 else 2).sum
  let lexer := { lexer with atLineStart := false }
  match lexer.peek with
  | some c =>
      if indent > 0 ∧ c ≠ '\n' ∧ c ≠ '#' then
        (some ⟨.indent indent, ⟨lexer.line, startCol, indent⟩⟩, lexer)
      else (none, lexer)
  | none => (none, lexer)

/-- A word ends a description when it is a section keyword at the start of a line. -/
def afterWord (kind : TokenKind) (wasLineStart : Bool) (lexer : Lexer) : Lexer :=
  match kind with
  | .keyword .description => { lexer with inDescription := true }
  | .keyword .contract | .keyword .hash | .keyword .implementation | .keyword .composition
  | .keyword .native | .keyword .endBehavior | .keyword .entry | .keyword .uses
  | .keyword .endExecutable =>
      if wasLineStart then { lexer with inDescription := false } else lexer
  | _ => lexer

/-- Punctuation of one character. -/
def punctuation : Char → Option TokenKind
  | '=' => some .equals
  | ':' => some .colon
  | '@' => some .atSign
  | '[' => some .leftBracket
  | ']' => some .rightBracket
  | ',' => some .comma
  | '.' => some .dot
  | _ => none

/-- The token of a `-` that has been read at a place. -/
def dashToken (here : Nat → Span) (lexer : Lexer) : Except LexError (Token × Lexer) :=
  match lexer.chars with
  | '>' :: rest => .ok (⟨.arrow, here 2⟩, lexer.past '>' rest)
  | d :: _ =>
      if d.isDigit then readNumber '-' (here 0).col lexer
      else .ok (⟨.rawText "-", here 1⟩, lexer)
  | [] => .ok (⟨.rawText "-", here 1⟩, lexer)

/-- The token of a `"` that has been read at a place. -/
def quoteToken (here : Nat → Span) (lexer : Lexer) : Except LexError (Token × Lexer) :=
  if lexer.inDescription then .ok (⟨.rawText "\"", here 1⟩, lexer)
  else match readString (here 1) lexer.chars lexer with
    | .error e => .error e
    | .ok (s, lexer) =>
        let s := String.ofList s
        .ok (⟨.stringLit s, here (s.utf8ByteSize + 2)⟩, lexer)

/-- The token that starts with a character that has been read at a place. -/
def charToken (here : Nat → Span) (wasLineStart : Bool) (c : Char) (lexer : Lexer) :
    Except LexError (Token × Lexer) :=
  if c = '\n' then .ok (⟨.newline, here 1⟩, lexer)
  else if c = '"' then quoteToken here lexer
  else match punctuation c with
    | some kind => .ok (⟨kind, here 1⟩, lexer)
    | none =>
        if c = '-' then dashToken here lexer
        else if c.isDigit then readNumber c (here 0).col lexer
        else if isIdentStart c then
          let (ident, lexer) := readIdentifier c lexer
          let kind := keywordOrIdent ident
          .ok (⟨kind, here ident.length⟩, afterWord kind wasLineStart lexer)
        else .ok (⟨.rawText (String.singleton c), here 1⟩, lexer)

/-- The next token. The steps bound the comments skipped before it. -/
def nextToken : Nat → Lexer → Except LexError (Token × Lexer)
  | 0, lexer => .ok (⟨.eof, ⟨lexer.line, lexer.col, 0⟩⟩, lexer)
  | steps + 1, lexer =>
      match if lexer.atLineStart then lexer.readIndent else (none, lexer) with
      | (some token, lexer) => .ok (token, lexer)
      | (none, indented) =>
          let start := indented.skipWhitespace
          let here (len : Nat) : Span := ⟨start.line, start.col, len⟩
          match start.chars with
          | [] => .ok (⟨.eof, here 0⟩, start)
          | '#' :: rest =>
              let comment := start.past '#' rest
              nextToken steps (readWhile (· != '\n') comment.chars comment).2
          | c :: rest => charToken here lexer.atLineStart c (start.past c rest)

/-- Tokens up to the end of the text. -/
def tokens : Nat → Lexer → Except LexError (List Token)
  | 0, _ => .ok []
  | steps + 1, lexer => do
      let (token, lexer) ← nextToken (lexer.chars.length + 1) lexer
      if token.kind = .eof then .ok [token]
      else
        let rest ← tokens steps lexer
        .ok (token :: rest)

section Identifiers

variable {lexer after : Lexer} {token : Token} {name : String}

/-- What `read_while` collects satisfies its test. -/
theorem readWhile_all (p : Char → Bool) (chars : List Char) (lexer : Lexer) :
    (readWhile p chars lexer).1.all p := by
  induction chars generalizing lexer with
  | nil => rfl
  | cons c rest ih =>
      unfold readWhile
      by_cases passes : p c
      · simpa [passes] using ih (lexer.past c rest)
      · simp [passes]

/-- A word read as an identifier is spelled as it stands and is no keyword. -/
theorem keywordOrIdent_identifier {ident : String} (same : keywordOrIdent ident = .identifier name) :
    name = ident ∧ keywords.lookup ident = none := by
  unfold keywordOrIdent at same
  cases found : keywords.lookup ident with
  | some word => simp [found] at same
  | none => exact ⟨by simpa [found] using same.symm, rfl⟩

/-- A punctuation mark is not an identifier. -/
theorem punctuation_not_identifier {c : Char} : punctuation c ≠ some (.identifier name) := by
  unfold punctuation
  split <;> simp

/-- An indent is not an identifier. -/
theorem readIndent_not_identifier : lexer.readIndent.1.map Token.kind ≠ some (.identifier name) := by
  unfold readIndent
  dsimp only
  split
  · split <;> simp
  · simp

/-- A number is not an identifier. -/
theorem readNumber_not_identifier {first : Char} {startCol : Nat}
    (read : readNumber first startCol lexer = .ok (token, after)) :
    token.kind ≠ .identifier name := by
  unfold readNumber at read
  dsimp only at read
  split at read
  · split at read
    · cases read
    · split at read <;> cases read
      simp
  · split at read
    · cases read
      simp
    · split at read <;> cases read
      simp

/-- What begins with a dash is not an identifier. -/
theorem dashToken_not_identifier {here : Nat → Span}
    (read : dashToken here lexer = .ok (token, after)) : token.kind ≠ .identifier name := by
  unfold dashToken at read
  split at read
  · cases read
    simp
  · split at read
    · exact readNumber_not_identifier read
    · cases read
      simp
  · cases read
    simp

/-- What begins with a quote is not an identifier. -/
theorem quoteToken_not_identifier {here : Nat → Span}
    (read : quoteToken here lexer = .ok (token, after)) : token.kind ≠ .identifier name := by
  unfold quoteToken at read
  split at read
  · cases read
    simp
  · split at read <;> cases read
    simp

/-- A character that gives an identifier token begins a word of identifier characters. -/
theorem charToken_identifier {here : Nat → Span} {wasLineStart : Bool} {c : Char}
    (read : charToken here wasLineStart c lexer = .ok (token, after))
    (kind : token.kind = .identifier name) : IsIdentifier name := by
  unfold charToken at read
  split at read
  · cases read
    cases kind
  split at read
  · exact absurd kind (quoteToken_not_identifier read)
  split at read
  next mark =>
    cases read
    exact absurd (mark.trans (congrArg some kind)) punctuation_not_identifier
  split_ifs at read with minus digit start
  · exact absurd kind (dashToken_not_identifier read)
  · exact absurd kind (readNumber_not_identifier read)
  · cases read
    obtain ⟨rfl, unreserved⟩ := keywordOrIdent_identifier kind
    refine ⟨⟨c, _, String.toList_ofList, start, readWhile_all _ _ _⟩, unreserved⟩
  · cases read
    cases kind

/-- A token that is an identifier has a name the lexer reads as one. -/
theorem nextToken_identifier {steps : Nat} (read : lexer.nextToken steps = .ok (token, after))
    (kind : token.kind = .identifier name) : IsIdentifier name := by
  induction steps generalizing lexer with
  | zero =>
      cases read
      cases kind
  | succ steps ih =>
      unfold nextToken at read
      split at read
      next token' lexer' indented =>
        cases read
        split at indented
        · exact absurd (by rw [indented, Option.map_some, kind]) readIndent_not_identifier
        · cases indented
      next =>
        dsimp only at read
        split at read
        · cases read
          cases kind
        · exact ih read
        · exact charToken_identifier read kind

/-- Every identifier among the tokens of a text is a well-formed name. -/
theorem tokens_identifier {steps : Nat} {read : List Token} (done : lexer.tokens steps = .ok read)
    (member : token ∈ read) (kind : token.kind = .identifier name) : IsIdentifier name := by
  induction steps generalizing lexer read with
  | zero =>
      cases done
      cases member
  | succ steps ih =>
      unfold tokens at done
      cases first : lexer.nextToken (lexer.chars.length + 1) with
      | error e => rw [first] at done; cases done
      | ok result =>
          obtain ⟨head, rest⟩ := result
          rw [first] at done
          dsimp only [bind, Except.bind] at done
          split at done
          · cases done
            obtain rfl := List.mem_singleton.mp member
            exact nextToken_identifier first kind
          · cases later : rest.tokens steps with
            | error e => rw [later] at done; cases done
            | ok tail =>
                rw [later] at done
                cases done
                obtain rfl | member := List.mem_cons.mp member
                · exact nextToken_identifier first kind
                · exact ih later member

end Identifiers

end Lexer

/-- The tokens of a source text. -/
def lex (source : String) : Except LexError (List Token) :=
  let lexer := Lexer.new source
  lexer.tokens (lexer.chars.length + 1)

/-- Every name in the tokens of a text is one the lexer reads as an identifier. -/
theorem lex_identifier {source name : String} {read : List Token} (done : lex source = .ok read)
    {token : Token} (member : token ∈ read) (kind : token.kind = .identifier name) :
    IsIdentifier name :=
  Lexer.tokens_identifier done member kind

end Sigil
