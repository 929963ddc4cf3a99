import Sigil.Flow.Returns
import Sigil.Lexer

/-!
# Parser of contracts

The clauses of a CONTRACT section. A clause given again replaces the earlier one, except
that INPUT, OUTPUT and MEMORY add to what was read before.
-/

namespace Sigil

open Flow

/-- What a parse error says. -/
inductive ParseErrorKind where
  | expected (expected got : TokenKind)
  | expectedIdentifier (got : TokenKind)
  | expectedHexString (got : TokenKind)
  | expectedType (got : TokenKind)
  | expectedInteger (got : TokenKind)
  | expectedEquals (got : TokenKind)
  | expectedWait
  | waitAnyTargets
  | unexpectedInExpression (got : TokenKind)
  | unexpectedAfterIdentifier (name : String) (got : TokenKind)
  | unexpectedStatement (got : TokenKind)
  | unexpectedEndOfFile
  | unexpectedInBehavior (got : TokenKind)
  | stepsExhausted
  deriving DecidableEq, Repr

/-- An error of the parser and its place. -/
structure ParseError where
  span : Span
  kind : ParseErrorKind
  deriving DecidableEq, Repr

/-- A parser passes on the tokens it has not read. -/
abbrev Parser := StateT (List Token) (Except ParseError)

namespace Parser

/-- The token at hand; past the last one it is the end of the file. -/
def peek : List Token → Token
  | [] => ⟨.eof, ⟨0, 0, 0⟩⟩
  | token :: _ => token

def peekKind : Parser TokenKind := do
  return (peek (← get)).kind

/-- The tokens after the one at hand. The end of the file is never passed. -/
def next (tokens : List Token) : List Token :=
  if (peek tokens).kind = .eof then tokens else tokens.tail

def advance : Parser Unit := modify next

def fail {α : Type} (kind : ParseErrorKind) : Parser α := do
  throw ⟨(peek (← get)).span, kind⟩

def isBlank : TokenKind → Bool
  | .newline | .indent _ => true
  | _ => false

/-- Past newlines and indentation. -/
def skipNewlines : Parser Unit := modify (·.dropWhile fun token => isBlank token.kind)

def expectIdentifier : Parser String := do
  match ← peekKind with
  | .identifier name => advance; return name
  | got => fail (.expectedIdentifier got)

/-- Short hexadecimal text is a hash that lost its leading zeros. -/
def padHash (result : List Char) : List Char :=
  if result ≠ [] ∧ result.length < 8 ∧ result.all Char.isHexDigit then
    List.replicate (8 - result.length) '0' ++ result
  else result

/-- The text of a hash. One that starts with a digit comes as an integer and the rest. -/
def hashText : Parser (List Char) := do
  match ← peekKind with
  | .identifier s => advance; return s.toList
  | .integer n =>
      advance
      let digits := (toString n.toInt).toList
      match ← peekKind with
      | .identifier s =>
          if s.toList.all Char.isHexDigit then do
            advance
            return digits ++ s.toList
          else return digits
      | _ => return digits
  | got => fail (.expectedHexString got)

def expectHexString : Parser String := do
  let result ← hashText
  return String.ofList ((padHash result).map Char.toLower)

def parseType : Parser AstType := do
  match ← peekKind with
  | .keyword (.typ typ) => advance; return typ
  | got => fail (.expectedType got)

def parseInteger : Parser (BitVec 64) := do
  match ← peekKind with
  | .integer n => advance; return n
  | got => fail (.expectedInteger got)

def isInteger : TokenKind → Bool
  | .integer _ => true
  | _ => false

/-- The size of a parameter; a string may leave it out. -/
def parseSize (typ : AstType) : Parser Nat := do
  let kind ← peekKind
  if typ = .string ∧ !isInteger kind then return 0
  else
    let n ← parseInteger
    return n.toNat

/-- `name interpretation size`. -/
def parseParameter : Parser Parameter := do
  let name ← expectIdentifier
  let typ ← parseType
  let size ← parseSize typ
  return ⟨name, typ, size⟩

/-- `@hash`, or nothing. -/
def parsePin : Parser String := do
  match ← peekKind with
  | .atSign => advance; expectHexString
  | _ => return ""

/-- `behavior@hash behavior@hash ...`; the steps bound the references. -/
def parseBehaviorRefs : Nat → Parser (List BehaviorRef)
  | 0 => pure []
  | steps + 1 => do
      match ← peekKind with
      | .identifier name =>
          advance
          let hash ← parsePin
          let rest ← parseBehaviorRefs steps
          return ⟨name, hash⟩ :: rest
      | _ => return []

/-- The references of the last line that has some. -/
def parseRequires : Nat → List BehaviorRef → Parser (List BehaviorRef)
  | 0, behaviors => pure behaviors
  | steps + 1, behaviors => do
      skipNewlines
      match ← peekKind with
      | .identifier _ =>
          let behaviors ← parseBehaviorRefs ((← get).length + 1)
          parseRequires steps behaviors
      | _ => return behaviors

def parseGuarantees : Nat → Parser (List Guarantee)
  | 0 => pure []
  | steps + 1 => do
      match ← peekKind with
      | .keyword (.guarantee guarantee) =>
          advance
          let rest ← parseGuarantees steps
          return guarantee :: rest
      | _ => return []

/-- The names after MEMORY. -/
def parseMemory : Nat → Parser (List String)
  | 0 => pure []
  | steps + 1 => do
      match ← peekKind with
      | .identifier name =>
          advance
          let rest ← parseMemory steps
          return name :: rest
      | _ => return []

/-- The clauses of a contract, added to what was read so far. -/
def parseClauses : Nat → Contract → Parser Contract
  | 0, contract => pure contract
  | steps + 1, contract => do
      skipNewlines
      match ← peekKind with
      | .keyword .input =>
          advance
          let param ← parseParameter
          parseClauses steps { contract with inputs := contract.inputs ++ [param] }
      | .keyword .output =>
          advance
          let param ← parseParameter
          parseClauses steps { contract with outputs := contract.outputs ++ [param] }
      | .keyword .requires =>
          advance
          skipNewlines
          let behaviors ← parseRequires ((← get).length + 1) []
          parseClauses steps { contract with requires := { behaviors := behaviors } }
      | .keyword .guarantees =>
          advance
          let guarantees ← parseGuarantees ((← get).length + 1)
          parseClauses steps { contract with guarantees := guarantees }
      | .keyword .memory =>
          advance
          let memory ← parseMemory ((← get).length + 1)
          parseClauses steps { contract with
            requires := { contract.requires with memory := contract.requires.memory ++ memory } }
      | _ => return contract

/-- What follows the word CONTRACT. -/
def parseContract : Parser Contract := do
  parseClauses ((← get).length + 1) { inputs := [], outputs := [], guarantees := [] }

end Parser

/-- Text of characters an identifier may have. -/
def IsHashText (text : String) : Prop := text.toList.all isIdentChar

/-- A parameter as the parser reads them. -/
def Parameter.Spelled (param : Parameter) : Prop :=
  IsIdentifier param.name ∧ param.size < 2 ^ 64

/-- A reference as the parser reads them. -/
def BehaviorRef.Spelled (ref : BehaviorRef) : Prop :=
  IsIdentifier ref.name ∧ IsHashText ref.hash

/-- The names, sizes and pins of a contract are ones the parser reads. -/
structure Contract.Spelled (contract : Contract) : Prop where
  inputs : ∀ param ∈ contract.inputs, param.Spelled
  outputs : ∀ param ∈ contract.outputs, param.Spelled
  refs : ∀ ref ∈ contract.requires.behaviors, ref.Spelled

/-- Identifiers are ASCII, so what holds of their characters can be looked up. -/
theorem forall_isIdentChar {P : Char → Prop}
    (all : ∀ n < 128, isIdentChar (Char.ofNat n) → P (Char.ofNat n)) {c : Char}
    (ident : isIdentChar c) : P c := by
  have ascii : c.val.toNat < 128 := by
    have ranges := ident
    simp only [isIdentChar, Char.isAlphanum, Char.isAlpha, Char.isUpper, Char.isLower, Char.isDigit,
      Bool.or_eq_true, beq_iff_eq, decide_eq_true_eq, Bool.and_eq_true, ge_iff_le,
      UInt32.le_iff_toNat_le] at ranges
    obtain (((⟨_, upper⟩ | ⟨_, upper⟩) | ⟨_, upper⟩) | rfl) | rfl := ranges
    · exact lt_of_le_of_lt upper (by decide)
    · exact lt_of_le_of_lt upper (by decide)
    · exact lt_of_le_of_lt upper (by decide)
    · decide
    · decide
  have here := all c.toNat ascii
  rw [Char.ofNat_toNat] at here
  exact here ident

/-- An identifier character in lower case is one. -/
theorem isIdentChar_toLower {c : Char} (ident : isIdentChar c) : isIdentChar c.toLower :=
  forall_isIdentChar (P := fun c => isIdentChar c.toLower) (by decide) ident

/-- Digits are identifier characters. -/
theorem isIdentChar_of_isDigit {c : Char} (digit : c.isDigit) : isIdentChar c := by
  simp [isIdentChar, Char.isAlphanum, digit]

/-- Hexadecimal digits are identifier characters. -/
theorem isIdentChar_of_isHexDigit {c : Char} (digit : c.isHexDigit) : isIdentChar c := by
  simp only [Char.isHexDigit, Bool.or_eq_true, Bool.and_eq_true, decide_eq_true_eq] at digit
  simp only [isIdentChar, Char.isAlphanum, Char.isAlpha, Char.isUpper, Char.isLower, Bool.or_eq_true,
    Bool.and_eq_true, decide_eq_true_eq, ge_iff_le]
  rcases digit with (number | ⟨low, high⟩) | ⟨low, high⟩
  · exact .inl (.inl (.inr number))
  · exact .inl (.inl (.inl (.inr ⟨low, UInt32.le_trans high (show 'f'.val ≤ 'z'.val by decide)⟩)))
  · exact .inl (.inl (.inl (.inl ⟨low, UInt32.le_trans high (show 'F'.val ≤ 'Z'.val by decide)⟩)))

/-- A printed number is a hash text. -/
theorem isHashText_toString (n : Int) : IsHashText (toString n) := by
  have digits : ∀ m : Nat, (toString m).toList.all isIdentChar := by
    intro m
    rw [List.all_eq_true]
    intro c member
    rw [Nat.toString_eq_repr, Nat.toList_repr] at member
    exact isIdentChar_of_isDigit (Nat.isDigit_of_mem_toDigits (b := 10) (by decide) (by decide) member)
  cases n with
  | ofNat m => exact digits m
  | negSucc m =>
      have text : toString (Int.negSucc m) = "-" ++ toString (m + 1) := rfl
      rw [IsHashText, text, String.toList_append, List.all_append, digits]
      decide

/-- An identifier is a hash text. -/
theorem IsIdentifier.isHashText {name : String} (ident : IsIdentifier name) : IsHashText name := by
  obtain ⟨⟨first, rest, chars, start, all⟩, _⟩ := ident
  have here : isIdentChar first := by
    simp only [isIdentStart, Bool.or_eq_true] at start
    simp only [isIdentChar, Char.isAlphanum, Bool.or_eq_true]
    exact .inl (start.imp_left .inl)
  rw [IsHashText, chars, List.all_cons, here, all]
  rfl

namespace Parser

/-- Every identifier among the tokens is one the lexer reads. -/
def Named (tokens : List Token) : Prop :=
  ∀ token ∈ tokens, ∀ name, token.kind = .identifier name → IsIdentifier name

/-- Names are well formed in every part of the tokens. -/
theorem Named.mono {tokens tokens' : List Token} (named : Named tokens) (part : tokens' ⊆ tokens) :
    Named tokens' :=
  fun token member => named token (part member)

/-- Names are well formed behind a token. -/
theorem Named.next {tokens : List Token} (named : Named tokens) : Named (Parser.next tokens) := by
  unfold Parser.next
  split
  · exact named
  · exact named.mono (List.tail_subset _)

/-- A token kind that carries no other name than an identifier. -/
def KindNamed (kind : TokenKind) : Prop := ∀ name, kind = .identifier name → IsIdentifier name

/-- A name that is peeked at is well formed. -/
theorem ensures_peekKind : Ensures Named KindNamed peekKind := by
  refine .bind .get fun tokens named => .pure ?_
  cases tokens with
  | nil => exact fun _ same => by cases same
  | cons token rest => exact named token List.mem_cons_self

/-- Advancing keeps names well formed. -/
theorem ensures_advance : Ensures Named (fun _ => True) advance :=
  .modify fun _ named => named.next

/-- Skipping blanks keeps names well formed. -/
theorem ensures_skipNewlines : Ensures Named (fun _ => True) skipNewlines :=
  .modify fun _ named => named.mono (List.dropWhile_subset _)

/-- A failing parser ensures everything. -/
theorem ensures_fail {α : Type} {P : α → Prop} (kind : ParseErrorKind) :
    Ensures Named P (fail kind : Parser α) :=
  .bind .get fun _ _ => .throw _

/-- A name that is read is well formed. -/
theorem ensures_expectIdentifier : Ensures Named IsIdentifier expectIdentifier := by
  refine .bind ensures_peekKind fun kind named => ?_
  split
  next name => exact .bind ensures_advance fun _ _ => .pure (named name rfl)
  next => exact ensures_fail _

/-- Reading a type keeps names well formed. -/
theorem ensures_parseType : Ensures Named (fun _ => True) parseType := by
  refine .bind ensures_peekKind fun kind _ => ?_
  split
  · exact .bind ensures_advance fun _ _ => .pure trivial
  · exact ensures_fail _

/-- Reading an integer keeps names well formed. -/
theorem ensures_parseInteger : Ensures Named (fun _ => True) parseInteger := by
  refine .bind ensures_peekKind fun kind _ => ?_
  split
  · exact .bind ensures_advance fun _ _ => .pure trivial
  · exact ensures_fail _

/-- A padded hash in lower case is a hash text. -/
theorem isHashText_padHash {result : List Char} (all : result.all isIdentChar) :
    IsHashText (String.ofList ((padHash result).map Char.toLower)) := by
  have padded : (padHash result).all isIdentChar := by
    unfold padHash
    split
    · have zeros : (List.replicate (8 - result.length) '0').all isIdentChar := by
        rw [List.all_replicate]
        split
        · rfl
        · decide
      rw [List.all_append, all, zeros]
      rfl
    · exact all
  rw [IsHashText, String.toList_ofList, List.all_map]
  rw [List.all_eq_true] at padded ⊢
  exact fun c member => isIdentChar_toLower (padded c member)

/-- The text of a hash consists of identifier characters. -/
theorem ensures_hashText : Ensures Named (fun text => text.all isIdentChar) hashText := by
  refine .bind ensures_peekKind fun kind named => ?_
  split
  next s => exact .bind ensures_advance fun _ _ => .pure (named s rfl).isHashText
  next n =>
    have digits : (toString n.toInt).toList.all isIdentChar := isHashText_toString _
    refine .bind ensures_advance fun _ _ => .bind ensures_peekKind fun kind named => ?_
    split
    next s =>
      refine .ite (fun _ => ?_) fun _ => .pure digits
      refine .bind ensures_advance fun _ _ => .pure ?_
      rw [List.all_append, digits]
      exact (named s rfl).isHashText
    next => exact .pure digits
  next => exact ensures_fail _

/-- What is read as a hash is a hash text. -/
theorem ensures_expectHexString : Ensures Named IsHashText expectHexString :=
  .bind ensures_hashText fun _ all => .pure (isHashText_padHash all)

/-- A size that is read fits 64 bits. -/
theorem ensures_parseSize (typ : AstType) :
    Ensures Named (fun size => size < 2 ^ 64) (parseSize typ) := by
  refine .bind ensures_peekKind fun kind _ => .ite (fun _ => .pure (by decide)) fun _ => ?_
  exact .bind ensures_parseInteger fun n _ => .pure n.isLt

/-- A parameter that is read is spelled. -/
theorem ensures_parseParameter : Ensures Named Parameter.Spelled parseParameter :=
  .bind ensures_expectIdentifier fun _ ident => .bind ensures_parseType fun typ _ =>
    .bind (ensures_parseSize typ) fun _ small => .pure ⟨ident, small⟩

/-- A pin that is read is a hash text. -/
theorem ensures_parsePin : Ensures Named IsHashText parsePin := by
  refine .bind ensures_peekKind fun kind _ => ?_
  split
  · exact .bind ensures_advance fun _ _ => ensures_expectHexString
  · exact .pure rfl

/-- References that are read are spelled. -/
theorem ensures_parseBehaviorRefs (steps : Nat) :
    Ensures Named (fun refs => ∀ ref ∈ refs, ref.Spelled) (parseBehaviorRefs steps) := by
  induction steps with
  | zero => exact .pure (by simp)
  | succ steps ih =>
      refine .bind ensures_peekKind fun kind named => ?_
      split
      next name =>
        exact .bind ensures_advance fun _ _ => .bind ensures_parsePin fun _ text =>
          .bind ih fun _ spelled =>
            .pure (List.forall_mem_cons.mpr ⟨⟨named name rfl, text⟩, spelled⟩)
      next => exact .pure (by simp)

/-- References of a REQUIRES clause are spelled. -/
theorem ensures_parseRequires (steps : Nat) {behaviors : List BehaviorRef}
    (spelled : ∀ ref ∈ behaviors, ref.Spelled) :
    Ensures Named (fun refs => ∀ ref ∈ refs, ref.Spelled) (parseRequires steps behaviors) := by
  induction steps generalizing behaviors with
  | zero => exact .pure spelled
  | succ steps ih =>
      refine .bind ensures_skipNewlines fun _ _ => .bind ensures_peekKind fun kind _ => ?_
      split
      · exact .bind .get fun _ _ => .bind (ensures_parseBehaviorRefs _) fun _ spelled => ih spelled
      · exact .pure spelled

/-- Reading guarantees keeps names well formed. -/
theorem ensures_parseGuarantees (steps : Nat) :
    Ensures Named (fun _ => True) (parseGuarantees steps) := by
  induction steps with
  | zero => exact .pure trivial
  | succ steps ih =>
      refine .bind ensures_peekKind fun kind _ => ?_
      split
      · exact .bind ensures_advance fun _ _ => .bind ih fun _ _ => .pure trivial
      · exact .pure trivial

/-- Reading a MEMORY clause keeps names well formed. -/
theorem ensures_parseMemory (steps : Nat) : Ensures Named (fun _ => True) (parseMemory steps) := by
  induction steps with
  | zero => exact .pure trivial
  | succ steps ih =>
      refine .bind ensures_peekKind fun kind _ => ?_
      split
      · exact .bind ensures_advance fun _ _ => .bind ih fun _ _ => .pure trivial
      · exact .pure trivial

/-- A contract that is read is spelled. -/
theorem ensures_parseClauses (steps : Nat) {contract : Contract} (spelled : contract.Spelled) :
    Ensures Named Contract.Spelled (parseClauses steps contract) := by
  induction steps generalizing contract with
  | zero => exact .pure spelled
  | succ steps ih =>
      have more : ∀ {params : List Parameter} {param : Parameter}, (∀ p ∈ params, p.Spelled) →
          param.Spelled → ∀ p ∈ params ++ [param], p.Spelled := by
        intro params param old new p member
        obtain old' | new' := List.mem_append.mp member
        · exact old p old'
        · exact List.mem_singleton.mp new' ▸ new
      refine .bind ensures_skipNewlines fun _ _ => .bind ensures_peekKind fun kind _ => ?_
      split
      · exact .bind ensures_advance fun _ _ => .bind ensures_parseParameter fun _ new =>
          ih ⟨more spelled.inputs new, spelled.outputs, spelled.refs⟩
      · exact .bind ensures_advance fun _ _ => .bind ensures_parseParameter fun _ new =>
          ih ⟨spelled.inputs, more spelled.outputs new, spelled.refs⟩
      · exact .bind ensures_advance fun _ _ => .bind ensures_skipNewlines fun _ _ =>
          .bind .get fun _ _ => .bind (ensures_parseRequires _ (by simp)) fun _ refs =>
            ih ⟨spelled.inputs, spelled.outputs, refs⟩
      · exact .bind ensures_advance fun _ _ => .bind .get fun _ _ =>
          .bind (ensures_parseGuarantees _) fun _ _ =>
            ih ⟨spelled.inputs, spelled.outputs, spelled.refs⟩
      · exact .bind ensures_advance fun _ _ => .bind .get fun _ _ =>
          .bind (ensures_parseMemory _) fun _ _ =>
            ih ⟨spelled.inputs, spelled.outputs, spelled.refs⟩
      · exact .pure spelled

end Parser

/-- A contract the parser reads somewhere in a source text. -/
def Contract.Parsed (contract : Contract) : Prop :=
  ∃ source read here rest, lex source = .ok read ∧ here <:+ read ∧
    Returns Parser.parseContract here contract rest

/-- The parser reads no other names, sizes and pins. -/
theorem Contract.Parsed.spelled {contract : Contract} (parsed : contract.Parsed) :
    contract.Spelled := by
  obtain ⟨source, read, here, rest, done, part, returned⟩ := parsed
  have named : Parser.Named here := fun token member name kind =>
    lex_identifier done (part.subset member) kind
  have clauses : Ensures Parser.Named Contract.Spelled Parser.parseContract :=
    .bind .get fun _ _ => Parser.ensures_parseClauses _ ⟨by simp, by simp, by simp⟩
  exact (clauses here contract rest returned named).1

/-- The contract of a text that starts with CONTRACT. -/
def contractOf (source : String) : Option Contract :=
  match lex source with
  | .error _ => none
  | .ok read =>
      match Parser.parseContract read.tail with
      | .error _ => none
      | .ok (contract, _) => some contract

/-- The contract read from a text is one the parser can produce. -/
theorem parsed_of_contractOf {source : String} {contract : Contract}
    (found : contractOf source = some contract) : contract.Parsed := by
  unfold contractOf at found
  split at found
  · cases found
  next read lexed =>
    split at found
    · cases found
    next contract' rest returned =>
      cases found
      exact ⟨source, read, read.tail, rest, lexed, List.tail_suffix _, returned⟩

end Sigil
