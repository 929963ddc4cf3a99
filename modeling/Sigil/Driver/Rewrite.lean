import Sigil.Lexer.HashLines
import Sigil.Parser.HashSections

/-!
# Rewriting the hash of a behavior

The driver replaces what stands behind the first `HASH ` that begins a line, up to the end of
that line. It does not ask the parser where the hash is.
-/

namespace Sigil

open Flow Lexer Sigil.Parser

/-- The text with another hash, if it stands at the start of a line or not. No `HASH ` begins
inside another, so that every place is looked at. -/
def rewriteFrom (computed : List Char) : Bool → List Char → List Char
  | _, [] => []
  | atLineStart, c :: rest =>
      if atLineStart && "HASH ".toList.isPrefixOf (c :: rest) then
        "HASH ".toList ++ (computed ++ (rest.drop 4).dropWhile fun c => c != '\n' && c != '\r')
      else c :: rewriteFrom computed (c == '\n') rest

def rewriteHashLine (source computed : String) : String :=
  String.ofList (rewriteFrom computed.toList true source.toList)

/-- No line begins with `HASH `. -/
def noHashLine : Bool → List Char → Bool
  | _, [] => true
  | atLineStart, c :: rest =>
      !(atLineStart && "HASH ".toList.isPrefixOf (c :: rest)) && noHashLine (c == '\n') rest

section Text

variable {before value kept behind text line line' computed : List Char} {c : Char}

/-- What stands in one line is found in that line. -/
theorem isPrefixOf_line {needle : List Char} (inLine : '\n' ∉ needle) :
    needle.isPrefixOf (text ++ '\n' :: behind) = needle.isPrefixOf text := by
  induction needle generalizing text with
  | nil => simp
  | cons d needle ih =>
      obtain ⟨other, inLine⟩ := not_or.mp (List.mem_cons.not.mp inLine)
      cases text with
      | nil => simp [List.isPrefixOf, Ne.symm other]
      | cons c text => simp [List.isPrefixOf, ih inLine]

/-- The first line that begins with `HASH ` gets another hash. -/
theorem rewriteFrom_eq (start : Bool) (first : noHashLine start before = true)
    (inLine : '\n' ∉ value ∧ '\r' ∉ value)
    (begins : ∀ c ∈ (kept ++ '\n' :: behind).head?, c = '\n' ∨ c = '\r') :
    rewriteFrom computed start (before ++ '\n' ::
      ("HASH ".toList ++ (value ++ (kept ++ '\n' :: behind)))) =
      before ++ '\n' :: ("HASH ".toList ++ (computed ++ (kept ++ '\n' :: behind))) := by
  have needle : '\n' ∉ "HASH ".toList := by decide
  induction before generalizing start with
  | nil =>
      have shown : ∀ c ∈ value, (c != '\n' && c != '\r') = true := by
        intro c member
        have newline : c ≠ '\n' := fun same => inLine.1 (same ▸ member)
        have carriage : c ≠ '\r' := fun same => inLine.2 (same ▸ member)
        simp [newline, carriage]
      have stops : ((value ++ (kept ++ '\n' :: behind)).dropWhile fun c => c != '\n' && c != '\r') =
          kept ++ '\n' :: behind := by
        rw [List.dropWhile_append_of_pos shown]
        cases left : kept ++ '\n' :: behind with
        | nil => rfl
        | cons c rest =>
            exact List.dropWhile_cons_of_neg
              (by rcases begins c (by rw [left]; rfl) with rfl | rfl <;> decide)
      have break_ :
        (start && "HASH ".toList.isPrefixOf
          ('\n' :: ("HASH ".toList ++ (value ++ (kept ++ '\n' :: behind))))) =
          false := Bool.and_false start
      rw [List.nil_append, rewriteFrom, break_, if_neg Bool.false_ne_true, List.nil_append]
      exact congrArg (fun left => '\n' :: ("HASH ".toList ++ (computed ++ left))) stops
  | cons c before ih =>
      obtain ⟨none_, first⟩ := Bool.and_eq_true_iff.mp first
      have passed : (start && "HASH ".toList.isPrefixOf (c :: (before ++ '\n' :: ("HASH ".toList ++
          (value ++ (kept ++ '\n' :: behind)))))) = false := by
        rw [← List.cons_append, isPrefixOf_line needle]
        simpa only [Bool.not_eq_true'] using none_
      rw [List.cons_append, rewriteFrom, passed, if_neg Bool.false_ne_true, ih _ first,
        List.cons_append]

/-- A text that is not empty has a line. -/
theorem sourceLines_ne_nil (filled : text ≠ []) : sourceLines text ≠ [] := by
  unfold sourceLines
  split
  · exact absurd rfl filled
  · simp
  · simp
  · split <;> simp

/-- A character that is no part of a line break. -/
theorem sourceLines_cons (other : c ≠ '\n') (apart : ∀ rest, c = '\r' → text ≠ '\n' :: rest) :
    ∃ later, sourceLines text = later ∧ sourceLines (c :: text) =
      match later with
      | [] => [[c]]
      | line :: lines => (c :: line) :: lines :=
  ⟨_, rfl, by rw [sourceLines] <;> first | rfl | exact other | exact apart⟩

/-- Every line break ends a line. -/
theorem sourceLines_append : sourceLines (text ++ '\n' :: behind) =
    sourceLines (text ++ ['\n']) ++ sourceLines behind := by
  induction text with
  | nil => rfl
  | cons c text ih =>
      by_cases newline : c = '\n'
      · subst newline
        rw [List.cons_append, List.cons_append, sourceLines, sourceLines, ih, List.cons_append]
      · by_cases both : c = '\r' ∧ (text ++ ['\n']).head? = some '\n'
        · obtain ⟨rfl, next⟩ := both
          cases text with
          | nil => rfl
          | cons d text =>
              obtain rfl : d = '\n' := Option.some.inj next
              exact ih
        · have apart (left : List Char) : ∀ rest, c = '\r' →
            text ++ '\n' :: left ≠ '\n' :: rest := by
            intro rest carriage same
            refine both ⟨carriage, ?_⟩
            cases text with
            | nil => rfl
            | cons d text =>
                obtain ⟨rfl, -⟩ := List.cons.inj same
                rfl
          obtain ⟨one, lines, here⟩ := sourceLines_cons newline (apart [])
          obtain ⟨two, lines', here'⟩ := sourceLines_cons newline (apart behind)
          rw [List.cons_append, List.cons_append, here, here', ← lines', ih, lines]
          cases one with
          | nil => exact absurd lines (sourceLines_ne_nil (by simp))
          | cons line lines => rfl

/-- A text without a line break is one line. -/
theorem sourceLines_line (inLine : '\n' ∉ line) :
    ∃ shown, sourceLines (line ++ ['\n']) = [shown] := by
  induction line with
  | nil => exact ⟨[], rfl⟩
  | cons c line ih =>
      obtain ⟨other, inLine⟩ := not_or.mp (List.mem_cons.not.mp inLine)
      obtain ⟨shown, one⟩ := ih inLine
      by_cases both : c = '\r' ∧ line = []
      · obtain ⟨rfl, rfl⟩ := both
        exact ⟨[], rfl⟩
      · obtain ⟨later, lines, here⟩ := @sourceLines_cons (line ++ ['\n']) c (Ne.symm other)
          fun rest carriage same => by
          cases line with
          | nil => exact both ⟨carriage, rfl⟩
          | cons d line =>
              obtain ⟨rfl, -⟩ := List.cons.inj same
              exact inLine List.mem_cons_self
        rw [List.cons_append, here, ← lines, one]
        exact ⟨_, rfl⟩

/-- A description that leaves out a line does not depend on it. -/
theorem take_drop_other {lines rest : List (List Char)} {shown shown' : List Char}
    {first last : Nat}
    (apart : ¬ (first ≤ lines.length + 1 ∧ lines.length + 1 ≤ last)) :
    ((lines ++ shown :: rest).take last).drop (first - 1) =
      ((lines ++ shown' :: rest).take last).drop (first - 1) := by
  rcases Nat.lt_or_ge lines.length last with long | short
  · have late : lines.length + 1 ≤ first - 1 := by omega
    obtain ⟨n, same⟩ := Nat.exists_eq_add_of_le late
    have dropped (shown : List Char) : (lines ++ shown :: rest).drop (first - 1) = rest.drop n := by
      rw [same, Nat.add_assoc, Nat.add_comm 1, List.drop_append,
        List.drop_eq_nil_of_le (by omega), List.nil_append,
        Nat.add_sub_cancel_left, List.drop_succ_cons]
    rw [List.drop_take, List.drop_take, dropped, dropped]
  · rw [List.take_append_of_le_length short, List.take_append_of_le_length short]

end Text

/-- A source in parts: what stands in front of the first line that begins with `HASH `, what is
replaced on that line, what is kept of it from a carriage return on, and what follows. -/
structure HashText (source : String) where
  before : List Char
  value : List Char
  kept : List Char
  behind : List Char
  text : source.toList = before ++ '\n' :: ("HASH ".toList ++ (value ++ (kept ++ '\n' :: behind)))
  first : noHashLine true before = true
  inLine : '\n' ∉ value ∧ '\r' ∉ value
  keptLine : '\n' ∉ kept
  begins : ∀ c ∈ kept.head?, c = '\r'

namespace HashText

variable {source hash : String} {text : HashText source} {double : String → BitVec 64}

/-- The text in front of the line. -/
def front (text : HashText source) : List Char := text.before ++ ['\n']

/-- The number of the line. -/
def line (text : HashText source) : Nat := (sourceLines text.front).length + 1

/-- The text up to the end of the line, or up to a carriage return on it. -/
def upTo (text : HashText source) : List Char :=
    text.before ++ '\n' :: ("HASH ".toList ++ text.value)

/-- The parser reads its last HASH section there, up to the end of the line or a carriage return,
no comment hides what is kept behind the carriage return, and no DESCRIPTION has text from there. -/
structure Sole (text : HashText source) (double : String → BitVec 64) : Prop where
  bare : '#' ∈ text.value → Quiet text.kept
  reads : ∃ front eof mark words eof' behind before hash after,
    lex (String.ofList text.front) = .ok (front ++ [eof]) ∧
    lex (String.ofList text.upTo) = .ok (front ++ mark :: (words ++ [eof'])) ∧
    lex source = .ok (front ++ mark :: (words ++ behind)) ∧
    HashSection double (front ++ mark :: (words ++ behind)) (mark :: (words ++ behind)) behind
      before hash after ∧
    ∀ first last, .description first last ∈ before ++ after →
      ¬ (first ≤ text.line ∧ text.line ≤ last)

/-- The line with another hash, and nothing else changed. -/
theorem rewritten_toList (text : HashText source) : (rewriteHashLine source hash).toList =
    text.before ++ '\n' :: ("HASH ".toList ++
      (hash.toList ++ (text.kept ++ '\n' :: text.behind))) := by
  rw [rewriteHashLine, String.toList_ofList, text.text]
  refine rewriteFrom_eq true text.first text.inLine fun c member => ?_
  cases kept : text.kept with
  | nil =>
      rw [kept] at member
      exact .inl (Option.some.inj member).symm
  | cons d rest =>
      rw [kept] at member
      exact .inr (text.begins c (by rw [kept]; exact member))

/-- The lines of a description are the same behind the rewriting. -/
theorem descriptionText_rewritten (text : HashText source) (noBreak : '\n' ∉ hash.toList)
    {first last : Nat}
    (apart : ¬ (first ≤ text.line ∧ text.line ≤ last)) :
    descriptionText (rewriteHashLine source hash) first last =
      descriptionText source first last := by
  have needle : '\n' ∉ "HASH ".toList := by decide
  have parts {value : List Char} (inLine : '\n' ∉ value) :
    ∃ shown, sourceLines (text.before ++ '\n' ::
      ("HASH ".toList ++ (value ++ (text.kept ++ '\n' :: text.behind)))) =
        sourceLines text.front ++ shown :: sourceLines text.behind := by
    obtain ⟨shown, one⟩ : ∃ shown, sourceLines
      ("HASH ".toList ++ (value ++ text.kept) ++ ['\n']) = [shown] :=
      sourceLines_line
        (by simp only [List.mem_append, not_or]; exact ⟨needle, inLine, text.keptLine⟩)
    refine ⟨shown, ?_⟩
    rw [sourceLines_append, ← List.append_assoc value, ← List.append_assoc "HASH ".toList,
      @sourceLines_append _ ("HASH ".toList ++ (value ++ text.kept)), one]
    rfl
  obtain ⟨shown, lines⟩ := parts text.inLine.1
  obtain ⟨shown', lines'⟩ := parts noBreak
  unfold descriptionText
  rw [text.rewritten_toList, lines', text.text, lines]
  dsimp only
  rw [take_drop_other apart]

end HashText

/-- Rewriting the hash of a source gives the behavior with that hash. -/
def Rewrites (double : String → BitVec 64) (source hash : String) : Prop :=
  ∀ behavior, parse double source = some behavior → behavior.hash ≠ "" →
    parse double (rewriteHashLine source hash) = some { behavior with hash := hash }

/-- A source is parsed when it is lexed and its tokens are parsed. -/
theorem parse_eq_some_iff {double : String → BitVec 64} {source : String} {behavior : Described} :
    parse double source = some behavior ↔ ∃ tokens unread, lex source = .ok tokens ∧
      Returns (parseBehavior double source) tokens behavior unread := by
  unfold parse Returns
  cases lex source with
  | error e => simp
  | ok tokens =>
      dsimp only
      cases returned : parseBehavior double source tokens with
      | error e => simp [returned]
      | ok result => simp [returned, Prod.ext_iff]

/-- Where no line begins with `HASH `, nothing is rewritten. -/
theorem rewriteFrom_eq_self {computed text : List Char} {start : Bool}
    (none_ : noHashLine start text = true) : rewriteFrom computed start text = text := by
  induction text generalizing start with
  | nil => rfl
  | cons c text ih =>
      obtain ⟨first, none_⟩ := Bool.and_eq_true_iff.mp none_
      rw [rewriteFrom, if_neg (by simpa only [Bool.not_eq_true', Bool.not_eq_true] using first),
        ih none_]

/-- Then the behavior keeps its hash, so that only the hash it has can be rewritten. -/
theorem rewrites_iff_of_noHashLine {source hash : String} {double : String → BitVec 64}
    (none_ : noHashLine true source.toList = true) : Rewrites double source hash ↔
      ∀ behavior, parse double source = some behavior → behavior.hash ≠ "" →
        behavior.hash = hash := by
  have stays : rewriteHashLine source hash = source := by
    rw [rewriteHashLine, rewriteFrom_eq_self none_, String.ofList_toList]
  unfold Rewrites
  rw [stays]
  refine forall₂_congr fun behavior parsed => imp_congr_right fun _ => ?_
  rw [parsed, Option.some.injEq]
  constructor
  · intro same
    rw [same]
  · rintro rfl
    rfl

/-- A word HASH in the description, and a section behind a carriage return on the HASH line. -/
def describedHash : String :=
    "BEHAVIOR a\nDESCRIPTION\n  no HASH yet\nHASH 0badcafe\rNATIVE # old\n"

def describedHashText : HashText describedHash where
  before := "BEHAVIOR a\nDESCRIPTION\n  no HASH yet".toList
  value := "0badcafe".toList
  kept := '\r' :: "NATIVE # old".toList
  behind := []
  text := by decide +kernel
  first := by decide +kernel
  inLine := by decide
  keptLine := by decide
  begins := by simp

/-- Its tokens up to the word DESCRIPTION, to the HASH line, and behind the value. -/
def describedHashParts : List Token × List Token × List Token :=
  ([⟨.keyword .behavior, ⟨1, 1, 8⟩⟩, ⟨.identifier "a", ⟨1, 10, 1⟩⟩, ⟨.newline, ⟨1, 11, 1⟩⟩],
    [⟨.keyword .description, ⟨2, 1, 11⟩⟩, ⟨.newline, ⟨2, 12, 1⟩⟩, ⟨.indent 2, ⟨3, 1, 2⟩⟩,
      ⟨.identifier "no", ⟨3, 3, 2⟩⟩, ⟨.keyword .hash, ⟨3, 6, 4⟩⟩, ⟨.identifier "yet", ⟨3, 11, 3⟩⟩,
      ⟨.newline, ⟨3, 14, 1⟩⟩],
    [⟨.keyword .native, ⟨4, 15, 6⟩⟩, ⟨.newline, ⟨4, 27, 1⟩⟩, ⟨.eof, ⟨5, 1, 0⟩⟩])

/-- The tokens of its value. -/
def describedHashValue : List Token := [⟨.integer 0, ⟨4, 6, 1⟩⟩, ⟨.identifier "badcafe", ⟨4, 7, 7⟩⟩]

def describedHashStop : List Token :=
  ⟨.keyword .hash, ⟨4, 1, 4⟩⟩ :: (describedHashValue ++ describedHashParts.2.2)

/-- The HASH line is the one the parser reads. -/
theorem describedHash_sole : describedHashText.Sole fun _ => 0 where
  bare := fun comment => absurd comment (by decide)
  reads := by
    have section_ : Returns (parseSection fun _ => 0) (describedHashParts.2.1 ++ describedHashStop)
        (.description 3 3) describedHashStop := rfl
    have value : Returns (parseSection fun _ => 0) describedHashStop (.hash "0badcafe")
        describedHashParts.2.2 :=
      (returns_section_hash rfl).mpr ⟨_, by unfold Returns; decide +kernel, rfl⟩
    have native : Returns (parseSection fun _ => 0) describedHashParts.2.2 .native
        (describedHashParts.2.2.drop 1) := rfl
    refine ⟨describedHashParts.1 ++ describedHashParts.2.1, ⟨.eof, ⟨4, 1, 0⟩⟩,
      ⟨.keyword .hash, ⟨4, 1, 4⟩⟩,
      describedHashValue, ⟨.eof, ⟨4, 14, 0⟩⟩, describedHashParts.2.2, [.description 3 3],
        "0badcafe",
      [.native], by decide +kernel, by decide +kernel, by decide +kernel,
      ⟨⟨"a", describedHashParts.2.1 ++ describedHashStop, describedHashParts.2.2.drop 1, rfl,
        ?_, ?_⟩,
        value, by simp [Section.isHash]⟩, ?_⟩
    · exact .read (by decide) section_ rfl (.here rfl)
    · exact returns_parseSections_succ.mpr ⟨_, _, section_, _, returns_parseSections_succ.mpr
        ⟨_, _, value, _, returns_parseSections_succ.mpr ⟨_, _, native, rfl, rfl⟩, rfl⟩, rfl⟩
    · intro first last member
      have lines : Section.description first last = .description 3 3 := by simpa using member
      obtain ⟨rfl, rfl⟩ := Section.description.inj lines
      decide +kernel

/-- A source with an indented HASH. -/
def indentedHash : String := "BEHAVIOR a\n  HASH 00000000\nEND\n"

end Sigil
