import Sigil.Lexer.Descriptions
import Sigil.Parser

/-!
# Ends of descriptions

The parser decides for itself where a description ends. It takes an indented section keyword for
the end, and one right behind the word DESCRIPTION; the lexer reads on in free text.
-/

namespace Sigil

open Lexer

namespace Parser

/-- What ends a description at the start of a line. -/
def endsDescription : TokenKind → Bool
  | .keyword .contract | .keyword .hash | .keyword .implementation | .keyword .composition
  | .keyword .native | .keyword .endBehavior | .eof | .keyword .entry | .keyword .uses
  | .keyword .endExecutable => true
  | _ => false

/-- The line the description ends on, and the tokens behind it. -/
def scanDescription : Bool → Nat → List Token → Nat × List Token
  | _, endLine, [] => (endLine, [])
  | atLineStart, endLine, token :: rest =>
      if atLineStart && endsDescription token.kind then (endLine, token :: rest)
      else match token.kind with
        | .eof => (endLine, token :: rest)
        | .newline => scanDescription true token.span.line rest
        | .indent _ => scanDescription atLineStart endLine rest
        | _ => scanDescription false token.span.line rest

/-- The lines of a text, without the line breaks. -/
def sourceLines : List Char → List (List Char)
  | [] => []
  | '\n' :: rest => [] :: sourceLines rest
  | '\r' :: '\n' :: rest => [] :: sourceLines rest
  | c :: rest =>
      match sourceLines rest with
      | [] => [[c]]
      | line :: lines => (c :: line) :: lines

/-- Unicode white space. -/
def isWhitespace (c : Char) : Bool :=
  let n := c.toNat
  (9 ≤ n && n ≤ 13) || n == 0x20 || n == 0x85 || n == 0xA0 || n == 0x1680 ||
    (0x2000 ≤ n && n ≤ 0x200A) ||
    n == 0x2028 || n == 0x2029 || n == 0x202F || n == 0x205F || n == 0x3000

/-- Without white space at both ends. -/
def trim (text : List Char) : List Char :=
  ((text.dropWhile isWhitespace).reverse.dropWhile isWhitespace).reverse

/-- A line of a description, its first two blanks left out, behind the lines before it. -/
def appendLine (description line : List Char) : List Char :=
  let trimmed := if [' ', ' '].isPrefixOf line then line.drop 2 else line
  (if description = [] then [] else description ++ ['\n']) ++ trimmed

/-- The lines of a source from one to another, counted from 1. -/
def descriptionText (source : String) (first last : Nat) : String :=
  let lines := ((sourceLines source.toList).take last).drop (first - 1)
  String.ofList (trim ((if first = 0 then [] else lines).foldl appendLine []))

/-- The lines behind the word DESCRIPTION: the first, the last. -/
def describedLines : Parser (Nat × Nat) := do
  skipNewlines
  let first := (peek (← get)).span.line
  let (last, rest) := scanDescription true first (← get)
  set rest
  return (first, last)

/-- A DESCRIPTION ends at a section keyword or at the end of the text. -/
theorem endsDescription_eq (kind : TokenKind) :
    endsDescription kind = (isSection kind || kind == .eof) := by
  unfold endsDescription isSection
  split <;> simp_all

/-- The tokens that the parser reads on with behind a description. -/
def behindDescription (tokens : List Token) : List Token :=
  (scanDescription true 0 (tokens.dropWhile fun token => isBlank token.kind)).2

end Parser

/-- The tokens from the one on at which the lexer leaves a description, or the end of the file. -/
def leftDescription (run : List (Token × Lexer)) : List Token :=
  (run.dropWhile fun read => read.2.inDescription && read.1.kind != .eof).map Prod.fst

/-- The first line behind the first break that begins with a section keyword is not indented. -/
def EndsUnindented : List Char → Bool
  | [] => true
  | c :: rest => if c == '\n' && OpensSection rest then !Indented rest else EndsUnindented rest

/-- No section keyword stands right behind the word DESCRIPTION, and none begins an indented line
before one begins a line that is not. -/
def Unindented (text : List Char) : Bool := !OpensSection text && EndsUnindented text

section Boundaries

variable {lexer mid after : Lexer} {token : Token} {run : List (Token × Lexer)}
  {atLineStart : Bool} {endLine : Nat}
  {used left rest text : List Char} {tokens : List Token}

open Sigil.Parser

/-- Only the last line decides whether a description ends unindented. -/
theorem endsUnindented_append (line : '\n' ∉ used) :
    EndsUnindented (used ++ left) = EndsUnindented left := by
  induction used with
  | nil => rfl
  | cons c used ih =>
      obtain ⟨other, line⟩ := not_or.mp (List.mem_cons.not.mp line)
      have other' : (c == '\n') = false := by simpa using Ne.symm other
      rw [List.cons_append, EndsUnindented, other', Bool.false_and, if_neg Bool.false_ne_true]
      exact ih line

/-- Behind a line break the section that opens there decides. -/
theorem endsUnindented_newline : EndsUnindented ('\n' :: rest) =
    if OpensSection rest then !Indented rest else EndsUnindented rest := by
  rw [EndsUnindented, beq_self_eq_true, Bool.true_and]

/-- What the text says about the place at which the parser stops and the lexer leaves, if the
parser is at the start of a line or not. -/
def Meets (atLineStart : Bool) (lexer : Lexer) : Bool :=
  if atLineStart then
    if lexer.atLineStart then
      if OpensSection lexer.chars then !Indented lexer.chars else EndsUnindented lexer.chars
    else Unindented lexer.chars
  else EndsUnindented lexer.chars

/-- A token that opens no section leaves the decision to what follows. -/
theorem meets_of_not_opens (opens : OpensSection lexer.chars = false) :
    Meets atLineStart lexer = EndsUnindented lexer.chars := by
  unfold Meets Unindented
  rw [opens]
  split <;> simp

/-- A part of a line left does not decide. -/
theorem endsUnindented_of_part (part : PartLeft text left) :
    EndsUnindented text = EndsUnindented left := by
  obtain ⟨used, rfl, line⟩ := part
  exact endsUnindented_append line

/-- What a DESCRIPTION leaves does not depend on line numbers. -/
theorem scanDescription_tokens (atLineStart : Bool) (endLine endLine' : Nat) (tokens : List Token) :
    (scanDescription atLineStart endLine tokens).2 =
      (scanDescription atLineStart endLine' tokens).2 := by
  induction tokens generalizing atLineStart endLine endLine' with
  | nil => rfl
  | cons token rest ih =>
      unfold scanDescription
      split
      · rfl
      · split
        · rfl
        · rfl
        · exact ih _ _ _
        · rfl

/-- A section keyword at the start of a line ends the free text. -/
theorem afterWord_section {kind : TokenKind} (section_ : isSection kind = true) :
    (afterWord kind true lexer).inDescription = false := by
  unfold isSection at section_
  split at section_ <;> first | rfl | cases section_

/-- The parser stops where the lexer leaves exactly when the text says so. -/
theorem stops_iff (runs : Run lexer run) (mode : lexer.inDescription = true)
    (start : lexer.atLineStart = true → atLineStart = true) :
    (scanDescription atLineStart endLine (run.map Prod.fst)).2 = leftDescription run ↔
      Meets atLineStart lexer = true := by
  induction runs generalizing atLineStart endLine with
  | @last lexer after token read ended =>
      obtain ⟨-, -, left⟩ := step_state read
      have opens : OpensSection lexer.chars = false := by
        rw [← step_section read fun width => by simp [ended], ended]
        rfl
      rw [ended] at left
      refine iff_of_true ?_ ?_
      · simp [scanDescription, leftDescription, ended]
      · rw [meets_of_not_opens opens, endsUnindented_of_part left.1]
        rfl
  | @more lexer mid token run read inside rest ih =>
      obtain ⟨line, word, left⟩ := step_state read
      have longer : leftDescription run ≠ token :: run.map Prod.fst := by
        intro same
        have short :=
          (List.length_dropWhile_le (fun read => read.2.inDescription && read.1.kind != .eof) run)
        have length := congrArg List.length same
        simp only [leftDescription, List.length_map, List.length_cons] at length
        omega
      have stays (free : mid.inDescription = true) :
        leftDescription ((token, mid) :: run) = leftDescription run := by
        simp [leftDescription, free, inside]
      by_cases newline : token.kind = .newline
      · -- the next line decides
        have opens : OpensSection lexer.chars = false := by
          rw [← step_section read fun width => by simp [newline], newline]
          rfl
        have free : mid.inDescription = true := by
          rw [word, newline]
          exact mode
        rw [newline] at left
        obtain ⟨used, text, sameLine⟩ := left
        have scanned : scanDescription atLineStart endLine (token :: run.map Prod.fst) =
            scanDescription true token.span.line (run.map Prod.fst) := by
          simp [scanDescription, newline, endsDescription]
        rw [List.map_cons, scanned, stays free, ih free fun _ => rfl, meets_of_not_opens opens,
          text,
          endsUnindented_append sameLine, endsUnindented_newline, Meets, if_pos rfl,
          if_pos (by rw [line, newline]; rfl)]
      · have midLine : mid.atLineStart = false := by rw [line, decide_eq_false newline]
        have part : PartLeft lexer.chars mid.chars := by
          unfold TokenLeft at left
          split at left
          next ended => exact absurd ended inside
          next same => exact absurd same newline
          · exact left.1
        by_cases indent : ∃ width, token.kind = .indent width
        · obtain ⟨width, kind⟩ := indent
          obtain ⟨begins, spaces⟩ := step_behind_indent read kind
          obtain rfl := start begins
          have free : mid.inDescription = true := by
            rw [word, kind]
            exact mode
          have scanned : scanDescription true endLine (token :: run.map Prod.fst) =
              scanDescription true endLine (run.map Prod.fst) := by
            simp [scanDescription, kind, endsDescription]
          rw [List.map_cons, scanned, stays free, ih free fun _ => rfl, Meets, if_pos rfl, midLine,
            if_neg Bool.false_ne_true, Unindented, opensSection_congr spaces, Meets, if_pos rfl,
              if_pos begins,
            endsUnindented_of_part part]
          cases opens : OpensSection lexer.chars with
          | false => simp
          | true =>
              have indented := ((step_indent read opens).mp ⟨width, kind⟩).2
              simp [indented]
        · have noIndent (width : Nat) : token.kind ≠ .indent width :=
            fun kind => indent ⟨width, kind⟩
          have opens : isSection token.kind = OpensSection lexer.chars := step_section read noIndent
          have ends : endsDescription token.kind = OpensSection lexer.chars := by
            rw [endsDescription_eq, opens]
            simp [inside]
          have scanned (stops : (atLineStart && OpensSection lexer.chars) = false) :
              scanDescription atLineStart endLine (token :: run.map Prod.fst) =
                scanDescription false token.span.line (run.map Prod.fst) := by
            rw [scanDescription, ends, stops, if_neg Bool.false_ne_true]
            split
            next same => exact absurd same inside
            next same => exact absurd same newline
            next width same => exact absurd same (noIndent width)
            · rfl
          have later (free : mid.inDescription = true)
            (stops : (atLineStart && OpensSection lexer.chars) = false) :
              (scanDescription atLineStart endLine ((token :: run.map Prod.fst))).2 =
                leftDescription ((token, mid) :: run) ↔
                EndsUnindented lexer.chars = true := by
            rw [scanned stops, stays free, ih free fun begins =>
              absurd (midLine.symm.trans begins) (by simp), Meets,
              if_neg Bool.false_ne_true, endsUnindented_of_part part]
          cases section_ : OpensSection lexer.chars with
          | false =>
              have free : mid.inDescription = true := by
                rw [word]
                refine afterWord_free mode fun same => ?_
                rw [opens, section_] at same
                cases same
              rw [List.map_cons, later free (by rw [section_, Bool.and_false]),
                meets_of_not_opens section_]
          | true =>
              cases atLineStart with
              | false =>
                  have inLine : lexer.atLineStart = false := by
                    by_contra begins
                    exact absurd (start (by simpa using begins)) (by simp)
                  have free : mid.inDescription = true := by
                    rw [word]
                    exact afterWord_free mode fun _ => inLine
                  rw [List.map_cons, later free rfl, Meets, if_neg Bool.false_ne_true]
              | true =>
                  -- the parser stops here, the lexer only at the start of the line
                  have stopped : (scanDescription true endLine (token :: run.map Prod.fst)).2 =
                    token :: run.map Prod.fst := by
                    rw [scanDescription, ends, section_, Bool.and_true, if_pos rfl]
                  rw [List.map_cons, stopped, Meets, if_pos rfl, section_, if_pos rfl]
                  cases begins : lexer.atLineStart with
                  | true =>
                      have unindented : Indented lexer.chars = false := by
                        by_contra indented
                        exact indent ((step_indent read section_).mpr
                          ⟨begins, by simpa using indented⟩)
                      have leaves : mid.inDescription = false := by
                        rw [word, begins]
                        exact afterWord_section (opens.trans section_)
                      rw [if_pos rfl, unindented]
                      simp [leftDescription, leaves]
                  | false =>
                      have free : mid.inDescription = true := by
                        rw [word]
                        exact afterWord_free mode fun _ => begins
                      rw [if_neg Bool.false_ne_true, Unindented, section_, stays free]
                      exact iff_of_false longer.symm (by simp)

/-- Blank tokens in front do not change what a DESCRIPTION leaves. -/
theorem scanDescription_blank (tokens : List Token) (endLine endLine' : Nat) :
    (scanDescription true endLine (tokens.dropWhile fun token => isBlank token.kind)).2 =
      (scanDescription true endLine' tokens).2 := by
  induction tokens generalizing endLine endLine' with
  | nil => rfl
  | cons token rest ih =>
      by_cases blank : isBlank token.kind = true
      · rw [List.dropWhile_cons_of_pos (p := fun token : Token => isBlank token.kind) blank,
          ih endLine token.span.line]
        unfold isBlank at blank
        split at blank
        next newline => simp [scanDescription, newline, endsDescription]
        next width indent =>
          rw [scanDescription_tokens true token.span.line endLine']
          simp [scanDescription, indent, endsDescription]
        · cases blank
      · rw [List.dropWhile_cons_of_neg (p := fun token : Token => isBlank token.kind) blank]
        exact scanDescription_tokens true _ _ _

/-- The parser stops at the token at which the lexer leaves a description exactly when no section
keyword stands right behind the word DESCRIPTION or is the first to begin a line and indented. -/
theorem boundaries_agree_iff {source : String} {before behind : List (Token × Lexer)}
    {word : Token × Lexer}
    (runs : (Lexer.new source).Run (before ++ word :: behind))
      (block : word.1.kind = .keyword .description) :
    behindDescription (behind.map Prod.fst) = leftDescription behind ↔ Unindented word.2.chars =
      true := by
  obtain ⟨at', read, later⟩ := runs.behind (by simp [block])
  obtain ⟨line, mode, -⟩ := step_state read
  have inLine : word.2.atLineStart = false := by
    rw [line, block]
    rfl
  have free : word.2.inDescription = true := by
    rw [mode, block]
    rfl
  rw [behindDescription, scanDescription_blank _ _ 0, stops_iff later free fun _ =>
    rfl, Meets, if_pos rfl, inLine,
    if_neg Bool.false_ne_true]

/-- A description with an indented section keyword in it. -/
def indentedKeyword : String :=
    "BEHAVIOR a\nDESCRIPTION\n  USES of the word:\n  \"a\"\nCONTRACT\nEND\n"

def indentedKeywordRun : List (Token × Lexer) := ((Lexer.new indentedKeyword).runSteps 40).getD []

/-- Its word DESCRIPTION. -/
def indentedKeywordBlock : Token × Lexer := indentedKeywordRun.getD 3 (peek [], { chars := [] })

/-- The tokens of `indentedKeyword`, one after the other. -/
theorem indentedKeyword_runs : (Lexer.new indentedKeyword).Run
    (indentedKeywordRun.take 3 ++ indentedKeywordBlock :: indentedKeywordRun.drop 4) := by
  have parts : indentedKeywordRun.take 3 ++ indentedKeywordBlock :: indentedKeywordRun.drop 4 =
    indentedKeywordRun := by
    decide +kernel
  rw [parts]
  exact run_of_runSteps
    (by decide +kernel : (Lexer.new indentedKeyword).runSteps 40 = some indentedKeywordRun)

/-- A section keyword behind an indent. -/
theorem boundaries_agree_iff_indented :
    behindDescription ((indentedKeywordRun.drop 4).map Prod.fst) =
      leftDescription (indentedKeywordRun.drop 4) ↔
      Unindented indentedKeywordBlock.2.chars = true :=
  boundaries_agree_iff indentedKeyword_runs (by decide +kernel)

/-- The parser stops at the indented word, and the lexer at the end of the text. -/
theorem indentedKeyword_disagrees :
    ∃ before word behind, (Lexer.new indentedKeyword).Run (before ++ word :: behind) ∧
    word.1.kind = .keyword .description ∧
      behindDescription (behind.map Prod.fst) ≠ leftDescription behind := by
  refine ⟨_, _, _, indentedKeyword_runs, ?_, ?_⟩ <;> decide +kernel

end Boundaries

end Sigil
