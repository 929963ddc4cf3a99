import Sigil.Parser.Description

/-!
# Reading whole lines

Texts of whole lines are read line by line: pieces of a line up to the line break, indented or
not, and lines of free text. Whatever tokens free text is read as, a description goes on behind
them.
-/

namespace Sigil.Lexer

/-- Lines with the line breaks behind them. -/
def linesText (lines : List (List Char)) : List Char := lines.flatMap (· ++ ['\n'])

/-- No lines have no text. -/
@[simp] theorem linesText_nil : linesText [] = [] := rfl

/-- The text of lines is the first, its break and the others. -/
@[simp] theorem linesText_cons (line : List Char) (lines : List (List Char)) :
    linesText (line :: lines) = line ++ '\n' :: linesText lines := by
  simp [linesText]

/-- The texts of lines follow each other. -/
@[simp] theorem linesText_append (lines lines' : List (List Char)) :
    linesText (lines ++ lines') = linesText lines ++ linesText lines' := List.flatMap_append

variable {lexer after : Lexer} {kind : TokenKind} {kinds kinds' : List TokenKind} {start : Bool}
  {text text' rest : List Char} {stop stop' : List Char → Prop} {c : Char}

/-- From the start of a line on the lines are read as tokens of these kinds. -/
def ScansLines (lines : List (List Char)) (kinds : List TokenKind) : Prop :=
  ∀ (lexer : Lexer) (rest : List Char), lexer.chars = linesText lines ++ rest →
    lexer.atLineStart = true →
    lexer.inDescription = false →
    ∃ after, Reads lexer kinds after ∧ after.chars = rest ∧ after.atLineStart = true ∧
      after.inDescription = false

/-- No lines scan as nothing. -/
theorem ScansLines.nil : ScansLines [] [] :=
    fun lexer _ here line outside => ⟨lexer, .nil, here, line, outside⟩

/-- Lines scan one after the other. -/
theorem ScansLines.append {lines lines' : List (List Char)} (first : ScansLines lines kinds)
    (second : ScansLines lines' kinds') : ScansLines (lines ++ lines') (kinds ++ kinds') := by
  intro lexer rest here line outside
  rw [linesText_append, List.append_assoc] at here
  obtain ⟨mid, reads, there, line', outside'⟩ := first lexer _ here line outside
  obtain ⟨after, reads', done⟩ := second mid rest there line' outside'
  exact ⟨after, reads.append reads', done⟩

/-- A line break is read and begins a line. -/
theorem reads_newline (here : lexer.chars = '\n' :: rest) : ∃ after, Reads lexer [.newline] after ∧
    after.chars = rest ∧ after.atLineStart = true ∧ after.inDescription = lexer.inDescription := by
  refine ⟨({ lexer with atLineStart := false }.past '\n' rest), ?_, past_chars _ _ _, rfl,
    past_inDescription⟩
  refine @Reads.cons _ _ _ ⟨.newline, ⟨lexer.line, lexer.col, 1⟩⟩ _ (fun steps => ?_)
    (by simp) ?_ .nil
  · exact nextToken_solid here (by unfold Solid; decide) steps
  · rw [past_chars, here]
    exact Nat.lt_succ_self _

/-- A piece of a line that is a line by itself. -/
theorem Scans.line (scans : Scans true text kinds stop) (ends : ∀ rest, stop ('\n' :: rest)) :
    ScansLines [text] (kinds ++ [.newline]) := by
  intro lexer rest here line outside
  obtain ⟨mid, reads, there, -, outside'⟩ :=
    scans lexer ('\n' :: rest) (by simpa using here) line outside (ends rest)
  obtain ⟨after, reads', done, begun, mode⟩ := reads_newline there
  exact ⟨after, reads.append reads', done, begun, mode.trans outside'⟩

/-- Two blanks in front of a line are read as its indent. -/
theorem reads_indent (here : lexer.chars = ' ' :: ' ' :: c :: rest)
    (line : lexer.atLineStart = true)
    (solid : Solid c) (other : c ≠ '\n') :
      ∃ after, Reads lexer [.indent 2] after ∧ after.chars = c :: rest ∧
      after.atLineStart = false ∧ after.inDescription = lexer.inDescription := by
  obtain ⟨_, number, col, _, mode⟩ := lexer
  obtain rfl : _ = ' ' :: ' ' :: c :: rest := here
  obtain rfl : _ = true := line
  obtain ⟨space, tab, -, comment⟩ := solid
  refine ⟨⟨c :: rest, number, col + 1 + 1, false, mode⟩, ?_, rfl, rfl, rfl⟩
  refine @Reads.cons _ _ _ ⟨.indent 2, ⟨number, col, 2⟩⟩ _ (fun steps => ?_) (by simp) ?_ .nil
  · simp [nextToken, readIndent, readWhile, past, peek, space, tab, other, comment]
  · simp only [List.length_cons]
    omega

/-- A piece of a line that is indented by two blanks. -/
theorem Scans.indented (scans : Scans false (c :: text) kinds stop) (solid : Solid c)
    (other : c ≠ '\n')
    (ends : ∀ rest, stop ('\n' :: rest)) :
    ScansLines [' ' :: ' ' :: c :: text] (.indent 2 :: (kinds ++ [.newline])) := by
  intro lexer rest here line outside
  obtain ⟨mid, indents, there, inLine, mode⟩ :=
    reads_indent (show lexer.chars = ' ' :: ' ' :: c ::
      (text ++ '\n' :: rest) by simpa using here) line solid other
  obtain ⟨mid', reads, there', -, outside'⟩ :=
    scans mid ('\n' :: rest) there inLine (mode.trans outside) (ends rest)
  obtain ⟨after, reads', done, begun, mode'⟩ := reads_newline there'
  exact ⟨after, indents.append (reads.append reads'), done, begun, mode'.trans outside'⟩

/-- Behind a word and a space. -/
theorem Scans.behindSpace (first : Scans start text kinds EndsWord)
    (second : Scans false text' (kind :: kinds') stop) :
    Scans start (text ++ ' ' :: text') (kinds ++ kind :: kinds') stop := by
  refine first.append second.space fun rest _ c member => ?_
  obtain rfl := Option.some.inj member
  rfl

/-- A line break ends a word. -/
theorem endsWord_newline : EndsWord ('\n' :: rest) := fun c member => by
  obtain rfl := Option.some.inj member
  rfl

/-- A line break ends a number. -/
theorem endsNumber_newline : EndsNumber ('\n' :: rest) := fun c member => by
  obtain rfl := Option.some.inj member
  decide

section FreeText

open Sigil.Parser

variable {line : List Char} {lines : List (List Char)} {run later : List (Token × Lexer)}
  {tokens : List Token}

/-- A line of a description that begins with no section keyword and has no number out of range. -/
structure FreeLine (line : List Char) : Prop where
  inLine : '\n' ∉ line
  opens : OpensSection line = false
  readable : Readable line

/-- A single line has no section lines. -/
theorem noSections_of_line (inLine : '\n' ∉ line) : NoSections line = true := by
  induction line with
  | nil => rfl
  | cons c line ih =>
      obtain ⟨other, inLine⟩ := not_or.mp (List.mem_cons.not.mp inLine)
      rw [NoSections, ih inLine, Bool.and_true, Bool.or_eq_true]
      exact .inl (by simpa using Ne.symm other)

/-- A free line with two blanks in front is free. -/
theorem FreeLine.indented (free : FreeLine line) : FreeLine (' ' :: ' ' :: line) where
  inLine := by simpa using free.inLine
  opens := (opensSection_congr rfl).trans free.opens
  readable := by
    have blank : Plain ' ' := plain_of_isSpace rfl
    rw [readable_plain blank, readable_plain blank]
    exact free.readable

/-- A lexer in front of a free line is in free text. -/
theorem FreeLine.free (free : FreeLine line) (here : lexer.chars = line)
    (mode : lexer.inDescription = true) :
    Free lexer where
  mode := mode
  here _ := by rw [here, StartsSection, free.opens, Bool.false_and]
  later := here ▸ noSections_of_line free.inLine

/-- Free text never leaves its mode. -/
theorem Free.run_mode (free : Free lexer) (runs : Run lexer run) :
    ∀ read ∈ run, read.2.inDescription = true := by
  induction runs with
  | last read ended =>
      intro last member
      obtain rfl := List.mem_singleton.mp member
      exact free.step_mode read
  | more read inside rest ih =>
      intro last member
      obtain rfl | member := List.mem_cons.mp member
      · exact free.step_mode read
      · exact ih (free.step read inside) last member

/-- Only the last token of a run ends the text. -/
theorem Run.inside {front : List (Token × Lexer)} {last : Token × Lexer}
    (runs : Run lexer (front ++ [last])) :
    ∀ read ∈ front, read.1.kind ≠ .eof := by
  generalize same : front ++ [last] = whole at runs
  induction runs generalizing front with
  | last read ended =>
      have short := congrArg List.length same
      simp only [List.length_append, List.length_singleton, Nat.add_eq_right,
        List.length_eq_zero_iff] at short
      simp [short]
  | more read inside rest ih =>
      rcases front with _ | ⟨head, front⟩
      · simp
      · obtain ⟨rfl, same'⟩ := List.cons.inj same
        exact List.forall_mem_cons.mpr ⟨inside, ih same'⟩

/-- A description that goes on up to the end of a line goes on in the next one. -/
theorem scanDescription_line {last newline : Token} {tail : List Token} {begun : Bool}
    {endLine endLine' : Nat}
    (ended : (scanDescription begun endLine (tokens ++ [last])).2 = [last])
      (isNewline : newline.kind = .newline) :
    (scanDescription begun endLine (tokens ++ newline :: tail)).2 =
      (scanDescription true endLine' tail).2 := by
  induction tokens generalizing begun endLine with
  | nil =>
      rw [List.nil_append, scanDescription, if_neg (by simp [isNewline, endsDescription]),
        isNewline]
      exact scanDescription_tokens _ _ _ _
  | cons token tokens ih =>
      have longer : token :: (tokens ++ [last]) ≠ [last] := fun same => by
        have length := congrArg List.length same
        simp at length
      rw [List.cons_append, scanDescription] at ended ⊢
      split at ended
      · exact absurd ended longer
      next goes =>
        rw [if_neg goes]
        split at ended
        next kind => exact absurd ended longer
        all_goals exact ih ended

/-- A line of free text is read, and a description goes on behind it. -/
theorem run_freeLine (free : FreeLine line) (here : lexer.chars = line ++ '\n' :: rest)
    (begun : lexer.atLineStart = true) (mode : lexer.inDescription = true) :
    ∃ after : Lexer, after.chars = rest ∧ after.atLineStart = true ∧ after.inDescription = true ∧
      ∀ later, Run after later → ∃ front, Run lexer (front ++ later) ∧ ∀ tail endLine endLine',
        (scanDescription true endLine (front.map Prod.fst ++ tail)).2 =
          (scanDescription true endLine' tail).2 := by
  have freed : Free { lexer with chars := line } := free.free rfl mode
  obtain ⟨run, alone⟩ := freed.run_iff.mpr free.readable
  obtain ⟨front, last, rfl, ended⟩ := alone.snoc
  have modes := freed.run_mode alone
  have stays := modes last (by simp)
  refine ⟨⟨rest, last.2.line + 1, 1, true, last.2.inDescription⟩, rfl, rfl, stays,
    fun later behind => ?_⟩
  rw [← lineBreak_state alone] at behind
  have runs := alone.followed_iff.mpr ⟨later, behind, rfl⟩
  have same : ({ lexer with chars := line } : Lexer).followed ('\n' :: rest) = lexer := by
    obtain ⟨chars, _, _, _, _⟩ := lexer
    exact congrArg (Lexer.mk · _ _ _ _) here.symm
  rw [same] at runs
  refine ⟨front.map (withText ('\n' :: rest)) ++
    [lineBreak rest last], by simpa using runs, fun tail endLine endLine' => ?_⟩
  have all : ∀ read ∈ front, (read.2.inDescription && read.1.kind != .eof) = true :=
    fun read member => by
    simp [modes read (List.mem_append_left _ member), alone.inside read member]
  have goes : EndsUnindented line = true := by
    have text : EndsUnindented (line ++ []) = EndsUnindented [] := endsUnindented_append free.inLine
    rw [List.append_nil] at text
    exact text.trans rfl
  have stops : (scanDescription true endLine ((front ++ [last]).map Prod.fst)).2 =
    leftDescription (front ++ [last]) :=
    (stops_iff alone mode fun _ => rfl).mpr ((meets_of_not_opens free.opens).trans goes)
  have left : leftDescription (front ++ [last]) = [last.1] := by
    rw [leftDescription, List.dropWhile_append_of_pos all,
      List.dropWhile_cons_of_neg (by simp [ended])]
    rfl
  rw [left, List.map_append, List.map_singleton] at stops
  have spelled : (front.map (withText ('\n' :: rest)) ++ [lineBreak rest last]).map Prod.fst ++
    tail =
      front.map Prod.fst ++ (lineBreak rest last).1 :: tail := by
    simp [withText, Function.comp_def]
  rw [spelled]
  exact scanDescription_line stops rfl

/-- So are some of them. -/
theorem run_freeLines (free : ∀ line ∈ lines, FreeLine line)
    (here : lexer.chars = linesText lines ++ rest)
    (begun : lexer.atLineStart = true) (mode : lexer.inDescription = true) :
    ∃ after : Lexer, after.chars = rest ∧ after.atLineStart = true ∧ after.inDescription = true ∧
      ∀ later, Run after later → ∃ front, Run lexer (front ++ later) ∧ ∀ tail endLine endLine',
        (scanDescription true endLine (front.map Prod.fst ++ tail)).2 =
          (scanDescription true endLine' tail).2 := by
  induction lines generalizing lexer with
  | nil =>
      exact ⟨lexer, here, begun, mode, fun later runs =>
        ⟨[], runs, fun tail _ _ => scanDescription_tokens _ _ _ _⟩⟩
  | cons line lines ih =>
      obtain ⟨first, others⟩ := List.forall_mem_cons.mp free
      rw [linesText_cons, List.append_assoc, List.cons_append] at here
      obtain ⟨mid, there, begun', mode', reads⟩ := run_freeLine first here begun mode
      obtain ⟨after, left, begun'', mode'', reads'⟩ := ih others there begun' mode'
      refine ⟨after, left, begun'', mode'', fun later behind => ?_⟩
      obtain ⟨back, runs, scanned⟩ := reads' later behind
      obtain ⟨front, runs', scanned'⟩ := reads _ runs
      refine ⟨front ++ back, by rwa [List.append_assoc], fun tail endLine endLine' => ?_⟩
      rw [List.map_append, List.append_assoc, scanned' _ endLine 0]
      exact scanned tail 0 endLine'

end FreeText

end Sigil.Lexer
