import Sigil.Parser.Pins

/-!
# Tokens written with single spaces

The text of tokens of one line, and that the lexer reads it back as these tokens.
-/

namespace Sigil

open Lexer

/-- A character inside a string literal. -/
def escape : Char → List Char
  | '\n' => ['\\', 'n']
  | '\r' => ['\\', 'r']
  | '\t' => ['\\', 't']
  | '\\' => ['\\', '\\']
  | '"' => ['\\', '"']
  | c => [c]

namespace TokenKind

/-- The text of a token; what no expression has stays empty. -/
def text : TokenKind → List Char
  | .keyword word => word.text.toList
  | .identifier name => name.toList
  | .integer n => (toString n.toInt).toList
  | .floatLit digits => digits.toList
  | .stringLit s => '"' :: (s.toList.flatMap escape ++ ['"'])
  | .dot => ['.']
  | _ => []

/-- A point stands between two names, anything else behind a space. -/
def Glued (k next : TokenKind) : Prop := k = .dot ∨ next = .dot

instance : DecidableRel Glued := fun k next => by unfold Glued; infer_instance

end TokenKind

/-- Tokens one after the other, with single spaces. -/
def spaced : List TokenKind → List Char
  | [] => []
  | [k] => k.text
  | k :: next :: ks => k.text ++ ((if k.Glued next then [] else [' ']) ++ spaced (next :: ks))

/-- Digits with a point between them, behind a minus sign or not. -/
def IsDecimal (digits : String) : Prop :=
  ∃ (sign : Bool) (c : Char) (whole frac : List Char),
    digits.toList = (if sign then ['-'] else []) ++ (c :: whole ++ '.' :: frac) ∧
      (c :: whole).all Char.isDigit ∧ frac.all Char.isDigit

/-- A token that is read back from its text. -/
inductive Spellable : TokenKind → Prop where
  | keyword {word : Keyword} (inside : word ≠ .description) : Spellable (.keyword word)
  | identifier {name : String} (ident : IsIdentifier name) : Spellable (.identifier name)
  | integer {n : BitVec 64} : Spellable (.integer n)
  | floatLit {digits : String} (decimal : IsDecimal digits) : Spellable (.floatLit digits)
  | stringLit {s : String} : Spellable (.stringLit s)
  | dot : Spellable .dot

namespace Lexer

variable {start : Bool} {stop : List Char → Prop} {rest : List Char} {lexer : Lexer}

/-- A number is printed in digits. -/
theorem all_isDigit_toDigits (n : Nat) : (Nat.toDigits 10 n).all Char.isDigit :=
  List.all_eq_true.mpr fun _ member => Nat.isDigit_of_mem_toDigits (by decide) (by decide) member

/-- A printed integer scans as that integer. -/
theorem scans_integer (n : BitVec 64) :
    Scans start (toString n.toInt).toList [.integer n] EndsNumber := by
  have range := BitVec.toInt_lt (x := n)
  have range' := BitVec.le_toInt n
  have back : BitVec.ofInt 64 n.toInt = n := BitVec.ofInt_toInt
  generalize n.toInt = z at range range' back
  subst back
  cases z with
  | ofNat m =>
      obtain ⟨c, digits, text⟩ := List.exists_cons_of_ne_nil
        (Nat.toDigits_ne_nil (b := 10) (n := m))
      have all := all_isDigit_toDigits m
      have value : Nat.ofDigitChars 10 (c :: digits) 0 = m := by
        rw [← text, Nat.ofDigitChars_ten_toDigits]
      rw [text] at all
      obtain ⟨digit, inside⟩ := Bool.and_eq_true_iff.mp all
      have shown : (toString (Int.ofNat m)).toList = c :: digits := by
        rw [← text]
        exact Nat.toList_repr
      rw [shown]
      refine .number digit inside ?_
      unfold parseDecimal
      split
      next same =>
        obtain ⟨rfl, -⟩ := List.cons.inj same
        exact absurd digit (by decide)
      next =>
        rw [value]
        exact if_pos (by simp at range; omega)
  | negSucc m =>
      obtain ⟨c, digits, text⟩ := List.exists_cons_of_ne_nil
        (Nat.toDigits_ne_nil (b := 10) (n := m + 1))
      have all := all_isDigit_toDigits (m + 1)
      have value : Nat.ofDigitChars 10 (c :: digits) 0 = m + 1 := by
        rw [← text, Nat.ofDigitChars_ten_toDigits]
      rw [text] at all
      obtain ⟨digit, inside⟩ := Bool.and_eq_true_iff.mp all
      have shown : (toString (Int.negSucc m)).toList = '-' :: c :: digits := by
        rw [← text, ← Nat.toList_repr]
        simp [toString, Int.repr]
      rw [shown]
      refine .negative digit inside ?_
      change (if Nat.ofDigitChars 10 (c :: digits) 0 ≤ 2 ^ 63 then _ else _) = _
      rw [value, if_pos (by simp [Int.negSucc_eq] at range'; omega), ← BitVec.ofInt_natCast,
        ← BitVec.ofInt_neg]
      rfl

/-- The parts of a number with a point are read as they are. -/
theorem readNumber_point (first : Char) (startCol : Nat) {whole frac : List Char}
    (inside : whole.all Char.isDigit)
    (inside' : frac.all Char.isDigit) (boundary : ∀ c ∈ rest.head?, c.isDigit = false)
    (here : lexer.chars = whole ++ '.' :: (frac ++ rest)) :
    ∃ span after, readNumber first startCol lexer =
        .ok (⟨.floatLit (String.ofList (first :: whole ++ '.' :: frac)), span⟩, after) ∧
          after.chars = rest ∧
      after.atLineStart = lexer.atLineStart ∧ after.inDescription = lexer.inDescription := by
  obtain ⟨after, reads, done⟩ := readDecimal_point inside inside' boundary here
  have noPrefix : ¬ (first = '0' ∧ lexer.peek = some 'x') := by
    rintro ⟨-, same⟩
    rw [peek, here] at same
    cases whole with
    | nil => cases same
    | cons c whole =>
        obtain rfl := Option.some.inj same
        exact absurd (Bool.and_eq_true_iff.mp inside).1 (by decide)
  refine ⟨⟨lexer.line, startCol, (first :: whole ++ '.' :: frac).length⟩, after, ?_, done⟩
  simp [readNumber, noPrefix, reads]

/-- A decimal numeral scans as that float literal. -/
theorem scans_floatLit {digits : String} (decimal : IsDecimal digits) :
    Scans start digits.toList [.floatLit digits] EndsNumber := by
  obtain ⟨sign, c, whole, frac, text, inside, inside'⟩ := decimal
  have same : digits = String.ofList digits.toList := String.ofList_toList.symm
  obtain ⟨digit, whole'⟩ := Bool.and_eq_true_iff.mp inside
  obtain ⟨solid, newline, quote, mark, dash, -⟩ := isDigit_cases digit
  cases sign with
  | false =>
      have text : digits.toList = c :: (whole ++ '.' :: frac) := text
      rw [text]
      refine .token solid (by simp) (fun here lexer rest chars line outside follows => ?_) newline
      obtain ⟨span, after, read, there, line', outside'⟩ :=
        readNumber_point c (here 0).col whole' inside'
        (fun c member => (follows c member).1) (by rw [chars, List.append_assoc, List.cons_append])
      refine ⟨span, after, ?_, there, line'.trans line, outside'.trans outside⟩
      simp only [charToken, newline, if_false, quote, mark, dash, digit, if_true, read]
      rw [same, text]
      rfl
  | true =>
      have text : digits.toList = '-' :: (c :: whole ++ '.' :: frac) := text
      rw [text]
      refine .token (by unfold Solid; decide) (by simp)
        (fun here lexer rest chars line outside follows => ?_)
        (by decide)
      obtain ⟨span, after, read, there, line', outside'⟩ :=
        readNumber_point '-' (here 0).col inside inside'
        (fun c member => (follows c member).1) (by rw [chars, List.append_assoc]; rfl)
      refine ⟨span, after, ?_, there, line'.trans line, outside'.trans outside⟩
      have dashed : dashToken here lexer = readNumber '-' (here 0).col lexer :=
        dashToken_digit digit chars
      rw [charToken, if_neg (by decide), if_neg (by decide), show punctuation '-' = none from rfl]
      refine dashed.trans (read.trans ?_)
      rw [same, text]
      rfl

/-- A character is escaped, or stands for itself. -/
theorem escape_cases (c : Char) : (∃ e, escape c = ['\\', e] ∧ escaped e = some c ∧ e ≠ '\n') ∨
    escape c = [c] ∧ c ≠ '"' ∧ c ≠ '\\' ∧ c ≠ '\n' := by
  unfold escape
  split
  · exact .inl ⟨'n', rfl, rfl, by decide⟩
  · exact .inl ⟨'r', rfl, rfl, by decide⟩
  · exact .inl ⟨'t', rfl, rfl, by decide⟩
  · exact .inl ⟨'\\', rfl, rfl, by decide⟩
  · exact .inl ⟨'"', rfl, rfl, by decide⟩
  next newline _ _ backslash quote => exact .inr ⟨rfl, quote, backslash, newline⟩

/-- A string literal is read up to the quote that is not escaped. -/
theorem readString_escape (place : Span) {s : List Char}
    (here : lexer.chars = s.flatMap escape ++ '"' :: rest) :
    ∃ after, readString place lexer.chars lexer = .ok (s, after) ∧ after.chars = rest ∧
      after.atLineStart = lexer.atLineStart ∧ after.inDescription = lexer.inDescription := by
  rw [here]
  induction s generalizing lexer with
  | nil =>
      refine ⟨lexer.past '"' rest, rfl, past_chars _ _ _, ?_, past_inDescription⟩
      rw [past_eq (by decide)]
  | cons c s ih =>
      rw [List.flatMap_cons, List.append_assoc]
      rcases escape_cases c with ⟨e, shown, stands, other⟩ | ⟨shown, quote, backslash, other⟩
      · obtain ⟨after, reads, there, line, outside⟩ :=
          ih (past_chars (lexer.past '\\' (e :: (s.flatMap escape ++ '"' :: rest))) e _)
        refine ⟨after, ?_, there, ?_, outside.trans (past_inDescription.trans past_inDescription)⟩
        · rw [shown]
          change readString place ('\\' :: e :: (s.flatMap escape ++ '"' :: rest)) lexer = _
          rw [readString]
          simp only [stands, reads]
          rfl
        · rw [line, past_eq other, past_eq (by decide)]
      · obtain ⟨after, reads, there, line, outside⟩ :=
          ih (past_chars lexer c (s.flatMap escape ++ '"' :: rest))
        refine ⟨after, ?_, there, ?_, outside.trans past_inDescription⟩
        · rw [shown, List.singleton_append, readString]
          · rw [reads]
            rfl
          all_goals simp_all
        · rw [line, past_eq other]

/-- A printed string literal scans as that string. -/
theorem scans_stringLit (s : String) :
    Scans start (TokenKind.stringLit s).text [.stringLit s] fun _ => True := by
  refine .token (by unfold Solid; decide) (by simp)
    (fun here lexer rest chars line outside follows => ?_) (by decide)
  rw [List.append_assoc] at chars
  obtain ⟨after, reads, there, line', outside'⟩ := readString_escape (here 1) chars
  refine ⟨here (s.utf8ByteSize + 2), after, ?_, there, line'.trans line, outside'.trans outside⟩
  rw [charToken, if_neg (by decide), if_pos rfl]
  unfold quoteToken
  rw [outside, if_neg (by decide), reads]
  simp

end Lexer

/-- What may stand behind the text of a token. -/
def TokenKind.Ends : TokenKind → List Char → Prop
  | .keyword _, rest | .identifier _, rest => EndsWord rest
  | .integer _, rest | .floatLit _, rest => EndsNumber rest
  | _, _ => True

namespace Spellable

variable {k : TokenKind} {start : Bool}

/-- Every spellable token scans as itself. -/
theorem scans (written : Spellable k) : Scans start k.text [k] k.Ends := by
  cases written with
  | keyword inside => exact scans_keyword inside
  | identifier ident => exact scans_identifier ident
  | integer => exact scans_integer _
  | floatLit decimal => exact scans_floatLit decimal
  | stringLit => exact scans_stringLit _
  | dot => exact .mark rfl

/-- At the end of the text every token ends. -/
theorem ends_nil : k.Ends [] := by
  cases k <;> first | trivial | exact fun _ member => by cases member

/-- In front of a blank every token ends. -/
theorem ends_space {rest : List Char} : k.Ends (' ' :: rest) := by
  cases k <;> first | trivial | (intro c member; obtain rfl := Option.some.inj member; decide)

end Spellable

/-- A point follows a name only. -/
def Pointed (ks : List TokenKind) : Prop :=
  ks.IsChain fun k next => next = .dot → ∃ name, k = .identifier name

/-- Pointed spellings follow each other when the second does not begin with a dot. -/
theorem Pointed.append {ks ks' : List TokenKind} (first : Pointed ks) (second : Pointed ks')
    (apart : ∀ k ∈ ks'.head?, k ≠ .dot) : Pointed (ks ++ ks') :=
  List.isChain_append.mpr ⟨first, second, fun _ _ next member same =>
    absurd same (apart next member)⟩

/-- Tokens written with single spaces are read back up to the end of the text. -/
theorem scans_spaced {k : TokenKind} {ks : List TokenKind} {start : Bool}
    (written : ∀ k' ∈ k :: ks, Spellable k')
    (pointed : Pointed (k :: ks)) : Scans start (spaced (k :: ks)) (k :: ks) (· = []) := by
  induction ks generalizing k start with
  | nil =>
      refine (written k List.mem_cons_self).scans.mono ?_
      rintro _ rfl
      exact Spellable.ends_nil
  | cons next ks ih =>
      obtain ⟨first, later⟩ := List.forall_mem_cons.mp written
      obtain ⟨named, behind⟩ := List.isChain_cons_cons.mp pointed
      have rest : Scans false (spaced (next :: ks)) (next :: ks) (· = []) := ih later behind
      by_cases glued : k.Glued next
      · have text : spaced (k :: next :: ks) = k.text ++ spaced (next :: ks) := by
          rw [spaced, if_pos glued, List.nil_append]
        rw [text]
        refine first.scans.append rest ?_
        rintro _ rfl
        rcases glued with rfl | rfl
        · trivial
        · obtain ⟨name, rfl⟩ := named rfl
          intro c member
          have dot : c = '.' := by
            cases ks <;> exact (Option.some.inj member).symm
          rw [dot]
          decide
      · have text : spaced (k :: next :: ks) = k.text ++ (' ' :: spaced (next :: ks)) := by
          rw [spaced, if_neg glued, List.singleton_append]
        rw [text]
        refine first.scans.append rest.space ?_
        rintro _ rfl
        exact Spellable.ends_space

/-- No written token begins with a byte-order mark. -/
theorem no_mark {k : TokenKind} {ks : List TokenKind} (written : ∀ k' ∈ k :: ks, Spellable k')
    (pointed : Pointed (k :: ks)) : ∀ c ∈ (spaced (k :: ks)).head?, c ≠ '\uFEFF' := by
  rintro c member rfl
  obtain ⟨rest, text⟩ : ∃ rest, spaced (k :: ks) = '\uFEFF' :: rest := by
    cases found : spaced (k :: ks) with
    | nil => rw [found] at member; cases member
    | cons c rest =>
        rw [found] at member
        obtain rfl := Option.some.inj member
        exact ⟨rest, rfl⟩
  let lexer : Lexer := { chars := '\uFEFF' :: rest }
  have scans : Scans true (spaced (k :: ks)) (k :: ks) (· = []) := scans_spaced written pointed
  have here : lexer.chars = '\uFEFF' :: rest := rfl
  obtain ⟨after, reads, -⟩ := scans lexer [] (by rw [text, List.append_nil]) rfl rfl rfl
  generalize same : k :: ks = all at reads
  cases reads with
  | nil => cases same
  | cons read more shorter later =>
      have raw := (nextToken_solid here (by unfold Solid; decide) 0).symm.trans (read 0)
      obtain ⟨rfl, -⟩ := Prod.mk.inj (Except.ok.inj raw)
      have first := written k List.mem_cons_self
      rw [(List.cons.inj same).1] at first
      cases first

/-- The text of tokens is lexed to them and the end of the file. -/
theorem lex_spaced {k : TokenKind} {ks : List TokenKind} (written : ∀ k' ∈ k :: ks, Spellable k')
    (pointed : Pointed (k :: ks)) : ∃ tokens, lex (String.ofList (spaced (k :: ks))) = .ok tokens ∧
      tokens.map Token.kind = k :: ks ++ [.eof] := by
  have scans : Scans true (spaced (k :: ks)) (k :: ks) (· = []) := scans_spaced written pointed
  have first := no_mark written pointed
  rw [← String.toList_ofList (l := spaced (k :: ks))] at scans first
  exact scans.lex rfl first

end Sigil
