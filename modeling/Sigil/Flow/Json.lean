import Mathlib

/-!
# The grammar of JSON texts

The grammar of RFC 8259 over characters: whitespace, literals, numbers, strings, arrays and
objects.
-/

namespace Flow.Json

/-- Space, tab, newline and carriage return. -/
def IsWs (c : Char) : Prop := c = ' ' ∨ c = '\t' ∨ c = '\n' ∨ c = '\r'

def Space (text : List Char) : Prop := ∀ c ∈ text, IsWs c

/-- The three literal names. -/
inductive Literal : List Char → Prop where
  | true : Literal "true".toList
  | false : Literal "false".toList
  | null : Literal "null".toList

def Digits (text : List Char) : Prop := text ≠ [] ∧ ∀ c ∈ text, c.isDigit

/-- No leading zero. -/
inductive Integer : List Char → Prop where
  | zero : Integer ['0']
  | digits {first : Char} {rest : List Char} (digit : first.isDigit) (nonzero : first ≠ '0')
      (digits : ∀ c ∈ rest, c.isDigit) : Integer (first :: rest)

/-- The fraction of a number, when it has one. -/
inductive Fraction : List Char → Prop where
  | none : Fraction []
  | point {text : List Char} (digits : Digits text) : Fraction ('.' :: text)

/-- The exponent of a number, when it has one. -/
inductive Exponent : List Char → Prop where
  | none : Exponent []
  | power {mark : Char} {sign text : List Char} (letter : mark = 'e' ∨ mark = 'E')
      (signed : sign = [] ∨ sign = ['+'] ∨ sign = ['-']) (digits : Digits text) :
      Exponent (mark :: (sign ++ text))

/-- The numbers. -/
inductive Number : List Char → Prop where
  | positive {whole fraction power : List Char} (integer : Integer whole)
      (fractional : Fraction fraction) (exponent : Exponent power) :
      Number (whole ++ fraction ++ power)
  | negative {whole fraction power : List Char} (integer : Integer whole)
      (fractional : Fraction fraction) (exponent : Exponent power) :
      Number ('-' :: (whole ++ fraction ++ power))

/-- What stands between the quotes of a string. -/
inductive Chars : List Char → Prop where
  | nil : Chars []
  | plain {c : Char} {rest : List Char} (visible : ' ' ≤ c) (quote : c ≠ '"') (slash : c ≠ '\\')
      (more : Chars rest) : Chars (c :: rest)
  | escape {c : Char} {rest : List Char} (known : c ∈ ['"', '\\', '/', 'b', 'f', 'n', 'r', 't'])
      (more : Chars rest) : Chars ('\\' :: c :: rest)
  | unicode {digits rest : List Char} (four : digits.length = 4)
      (hex : ∀ c ∈ digits, c.isHexDigit) (more : Chars rest) : Chars ('\\' :: 'u' :: (digits ++ rest))

/-- The strings, with their quotes. -/
inductive Quoted : List Char → Prop where
  | mk {text : List Char} (chars : Chars text) : Quoted ('"' :: (text ++ ['"']))

mutual

/-- The values. -/
inductive Value : List Char → Prop where
  | literal {text : List Char} (literal : Literal text) : Value text
  | number {text : List Char} (number : Number text) : Value text
  | string {text : List Char} (quoted : Quoted text) : Value text
  | emptyArray {space : List Char} (blank : Space space) : Value ('[' :: (space ++ [']']))
  | array {text : List Char} (elements : Elements text) : Value ('[' :: (text ++ [']']))
  | emptyObject {space : List Char} (blank : Space space) : Value ('{' :: (space ++ ['}']))
  | object {text : List Char} (members : Members text) : Value ('{' :: (text ++ ['}']))

/-- A value in whitespace. -/
inductive Element : List Char → Prop where
  | mk {before text behind : List Char} (blank : Space before) (value : Value text)
      (blank' : Space behind) : Element (before ++ text ++ behind)

/-- The elements of an array, one at least. -/
inductive Elements : List Char → Prop where
  | last {text : List Char} (element : Element text) : Elements text
  | cons {text rest : List Char} (element : Element text) (more : Elements rest) :
      Elements (text ++ ',' :: rest)

/-- A name and the element it stands for. -/
inductive Member : List Char → Prop where
  | mk {before name behind text : List Char} (blank : Space before) (quoted : Quoted name)
      (blank' : Space behind) (element : Element text) :
      Member (before ++ name ++ behind ++ ':' :: text)

/-- The members of an object, one at least. -/
inductive Members : List Char → Prop where
  | last {text : List Char} (member : Member text) : Members text
  | cons {text rest : List Char} (member : Member text) (more : Members rest) :
      Members (text ++ ',' :: rest)

end

/-- The characters that objects, arrays, strings and numbers start with. -/
def Opener (c : Char) : Prop := c = '{' ∨ c = '[' ∨ c = '"' ∨ c = '-' ∨ c.isDigit

variable {text : List Char}

/-- An integer begins with a digit. -/
theorem Integer.opens (integer : Integer text) : ∃ c rest, text = c :: rest ∧ c.isDigit := by
  cases integer with
  | zero => exact ⟨_, _, rfl, rfl⟩
  | digits digit => exact ⟨_, _, rfl, digit⟩

/-- A number begins with a digit or a sign. -/
theorem Number.opens (number : Number text) : ∃ c rest, text = c :: rest ∧ Opener c := by
  cases number with
  | positive integer =>
      obtain ⟨c, rest, rfl, digit⟩ := integer.opens
      exact ⟨c, _, rfl, .inr (.inr (.inr (.inr digit)))⟩
  | negative => exact ⟨_, _, rfl, .inr (.inr (.inr (.inl rfl)))⟩

/-- A value is a literal or tells by its first character what it is. -/
theorem Value.literal_or_opens (value : Value text) :
    Literal text ∨ ∃ c rest, text = c :: rest ∧ Opener c := by
  cases value with
  | literal literal => exact .inl literal
  | number number => exact .inr number.opens
  | string quoted =>
      cases quoted with
      | mk => exact .inr ⟨_, _, rfl, .inr (.inr (.inl rfl))⟩
  | emptyArray | array => exact .inr ⟨_, _, rfl, .inr (.inl rfl)⟩
  | emptyObject | object => exact .inr ⟨_, _, rfl, .inl rfl⟩

/-- A literal starts with a letter. -/
theorem Literal.closed (literal : Literal text) :
    ∃ c rest, text = c :: rest ∧ c ∈ ['t', 'f', 'n'] := by
  cases literal <;> exact ⟨_, _, rfl, by decide⟩

end Flow.Json
