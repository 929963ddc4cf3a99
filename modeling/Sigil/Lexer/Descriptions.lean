import Sigil.Lexer.FreeText

/-!
# Descriptions

A source with free text behind the word DESCRIPTION, and the same source without the text.
-/

namespace Sigil

namespace Lexer

variable {lexer mid after : Lexer} {token : Token} {chars rest text : List Char}
  {run : List (Token × Lexer)}

/-- A line begins with a section keyword at its start. -/
def StartsSection (text : List Char) : Bool := OpensSection text && !Indented text

/-- No line behind the first begins with a section keyword at its start. -/
def NoSections : List Char → Bool
  | [] => true
  | c :: rest => (c != '\n' || !StartsSection rest) && NoSections rest

/-- What is left of a text without section lines has none. -/
theorem noSections_behind {used left : List Char} (plain : NoSections (used ++ left)) :
    NoSections left := by
  induction used with
  | nil => exact plain
  | cons c used ih =>
      rw [List.cons_append, NoSections, Bool.and_eq_true] at plain
      exact ih plain.2

/-- In a text without section lines no line starts a section. -/
theorem noSections_line (plain : NoSections ('\n' :: rest)) : StartsSection rest = false := by
  rw [NoSections, Bool.and_eq_true] at plain
  simpa using plain.1

/-- The lexer in free text. -/
structure Free (lexer : Lexer) : Prop where
  mode : lexer.inDescription = true
  here : lexer.atLineStart = true → StartsSection lexer.chars = false
  later : NoSections lexer.chars

/-- A word that opens no section leaves the lexer in free text. -/
theorem afterWord_free {kind : TokenKind} {wasLineStart : Bool} (mode : lexer.inDescription = true)
    (inside : isSection kind = true → wasLineStart = false) :
    (afterWord kind wasLineStart lexer).inDescription = true := by
  unfold afterWord
  split
  · rfl
  all_goals first
    | exact mode
    | (rw [inside rfl]; exact mode)

/-- A section keyword is read at the start of a line where the line starts with one. -/
theorem step_startsSection (read : lexer.step = .ok (token, after))
    (section_ : isSection token.kind)
    (start : lexer.atLineStart = true) : StartsSection lexer.chars = true := by
  have noIndent (width : Nat) : token.kind ≠ .indent width := by
    intro kind
    rw [kind] at section_
    cases section_
  have opens : OpensSection lexer.chars = true := (step_section read noIndent).symm.trans section_
  have unindented : ¬ Indented lexer.chars = true := by
    intro indented
    obtain ⟨width, kind⟩ := (step_indent read opens).mpr ⟨start, indented⟩
    exact noIndent width kind
  simp [StartsSection, opens, unindented]

/-- A step in free text stays in free text. -/
theorem Free.step_mode (free : Free lexer) (read : lexer.step = .ok (token, after)) :
    after.inDescription = true := by
  rw [(step_state read).2.1]
  refine afterWord_free free.mode fun section_ => ?_
  by_contra start
  have starts := step_startsSection read section_ (by simpa using start)
  rw [free.here (by simpa using start)] at starts
  cases starts

/-- A step in free text leaves free text. -/
theorem Free.step (free : Free lexer) (read : lexer.step = .ok (token, after))
    (more : token.kind ≠ .eof) :
    Free after := by
  obtain ⟨line, -, left⟩ := step_state read
  have later := free.later
  by_cases newline : token.kind = .newline
  · rw [newline] at left
    obtain ⟨used, text, -⟩ : PartLeft lexer.chars ('\n' :: after.chars) := left
    rw [text] at later
    have behind : NoSections ('\n' :: after.chars) := noSections_behind later
    exact ⟨free.step_mode read, fun _ => noSections_line behind, (Bool.and_eq_true_iff.mp behind).2⟩
  · have part : PartLeft lexer.chars after.chars := by
      unfold TokenLeft at left
      split at left
      next ended => exact absurd ended more
      next line => exact absurd line newline
      · exact left.1
    obtain ⟨used, text, -⟩ := part
    rw [text] at later
    refine ⟨free.step_mode read, fun start => ?_, noSections_behind later⟩
    rw [line, decide_eq_false newline] at start
    cases start

/-- Free text is lexed exactly when its numbers can be read. -/
theorem Free.run_iff (free : Free lexer) : (∃ run, Run lexer run) ↔ Readable lexer.chars := by
  induction shorter : lexer.chars.length using Nat.strong_induction_on generalizing lexer with
  | _ n ih =>
      subst shorter
      have reads := step_readable free.mode
      cases read : lexer.step with
      | error e =>
          rw [read] at reads
          refine iff_of_false ?_ reads
          rintro ⟨run, runs⟩
          cases runs with
          | last read' _ => rw [read] at read'; cases read'
          | more read' _ _ => rw [read] at read'; cases read'
      | ok result =>
          obtain ⟨token, mid⟩ := result
          rw [read] at reads
          rw [show Readable lexer.chars ↔ Readable mid.chars from reads]
          by_cases ended : token.kind = .eof
          · have left := (step_state read).2.2
            rw [ended] at left
            rw [left.2]
            exact iff_of_true ⟨_, .last read ended⟩ (by rw [Readable]; trivial)
          · rw [← ih _ (step_shorter read ended) (free.step read ended) rfl]
            constructor
            · rintro ⟨run, runs⟩
              cases runs with
              | last read' ended' =>
                  rw [read] at read'
                  cases read'
                  exact absurd ended' ended
              | more read' _ later =>
                  rw [read] at read'
                  cases read'
                  exact ⟨_, later⟩
            · rintro ⟨run, runs⟩
              exact ⟨_, .more read ended runs⟩

/-- A run through free text ends in free text. -/
theorem Free.last_mode (free : Free lexer) (runs : Run lexer run) :
    ∀ last ∈ run.getLast?, last.2.inDescription = true := by
  induction runs with
  | last read ended =>
      intro last same
      cases same
      exact free.step_mode read
  | @more _ _ _ run read inside rest ih =>
      intro last member
      rcases run with _ | ⟨head, tail⟩
      · cases rest
      · exact ih (free.step read inside) last (by simpa using member)

section Sources

/-- Whether a text is lexed to its end. -/
def Succeeds (lexer : Lexer) : Prop := ∃ run, Run lexer run

/-- Lexers that are alike succeed together. -/
theorem Alike.succeeds_iff {other : Lexer} (alike : Alike lexer other) :
    lexer.Succeeds ↔ other.Succeeds := by
  constructor
  · rintro ⟨run, runs⟩
    obtain ⟨run', runs', -⟩ := runs.alike alike
    exact ⟨run', runs'⟩
  · rintro ⟨run, runs⟩
    obtain ⟨run', runs', -⟩ := runs.alike ⟨alike.chars.symm, alike.lineStart.symm, alike.mode.symm⟩
    exact ⟨run', runs'⟩

/-- A text lexes exactly when what its first token leaves does. -/
theorem succeeds_of_step (read : lexer.step = .ok (token, mid)) (more : token.kind ≠ .eof) :
    lexer.Succeeds ↔ mid.Succeeds := by
  constructor
  · rintro ⟨run, runs⟩
    cases runs with
    | last read' ended =>
        rw [read] at read'
        cases read'
        exact absurd ended more
    | more read' _ later =>
        rw [read] at read'
        cases read'
        exact ⟨_, later⟩
  · rintro ⟨run, runs⟩
    exact ⟨_, .more read more runs⟩

/-- A text of whole lines. -/
def WholeLines (text : List Char) : Prop := text = [] ∨ ∃ lines, text = lines ++ ['\n']

/-- Whether a text behind some lines is lexed depends on the mode these end in. -/
theorem exists_lineStart {lines : List Char} (whole : WholeLines lines)
    (start : lexer.chars = lines ++ text)
    (succeeds : lexer.Succeeds) (begun : lexer.atLineStart = true) :
    ∃ line mode, ∀ other : List Char, ({ lexer with chars := lines ++ other } : Lexer).Succeeds ↔
      (⟨other, line, 1, true, mode⟩ : Lexer).Succeeds := by
  obtain rfl | ⟨lines, rfl⟩ := whole
  · refine ⟨lexer.line, lexer.inDescription, fun other => ?_⟩
    exact Alike.succeeds_iff ⟨rfl, begun, rfl⟩
  · have broken (other : List Char) : ({ lexer with chars := lines ++ ['\n'] ++ other } : Lexer) =
        ({ lexer with chars := lines } : Lexer).followed ('\n' :: other) := by
      simp [followed]
    obtain ⟨run, runs⟩ := succeeds
    have same : lexer = ({ lexer with chars := lines } : Lexer).followed ('\n' :: text) := by
      rw [← broken, ← start]
    rw [same] at runs
    obtain ⟨run', runs'⟩ := runs.of_followed
    obtain ⟨front, last, rfl, -⟩ := runs'.snoc
    refine ⟨last.2.line + 1, last.2.inDescription, fun other => ?_⟩
    rw [broken]
    constructor
    · rintro ⟨run, runs⟩
      obtain ⟨later, runs, -⟩ := runs'.followed_iff.mp runs
      rw [lineBreak_state runs'] at runs
      exact ⟨later, runs⟩
    · rintro ⟨later, runs⟩
      rw [← lineBreak_state runs'] at runs
      exact ⟨_, runs'.followed_iff.mpr ⟨later, runs, rfl⟩⟩

/-- Behind the word DESCRIPTION the lexer is in free text. -/
theorem step_description (here : lexer.chars = "DESCRIPTION".toList ++ rest)
    (apart : ∀ c ∈ rest.head?, isIdentChar c = false) :
    ∃ token mid, lexer.step = .ok (token, mid) ∧ token.kind = .keyword .description ∧
      Alike mid ⟨rest, 0, 0, false, true⟩ := by
  have text : lexer.chars = 'D' :: ("ESCRIPTION".toList ++ rest) := here
  obtain ⟨later, reads, left, start, -⟩ :=
    readWhile_append (by decide : "ESCRIPTION".toList.all isIdentChar) apart
    (by decide) (past_chars { lexer with atLineStart := false } 'D' ("ESCRIPTION".toList ++ rest))
  have word : keywordOrIdent (String.ofList ('D' :: "ESCRIPTION".toList)) =
    .keyword .description := by decide
  refine ⟨⟨.keyword .description, ⟨lexer.line, lexer.col, 11⟩⟩,
    afterWord (.keyword .description) lexer.atLineStart later, ?_, rfl, ?_⟩
  · have begins : step lexer = charToken _ _ _ _ := nextToken_solid text (by unfold Solid; decide) 1
    rw [begins, charToken, if_neg (by decide), if_neg (by decide), show punctuation 'D' =
      none from rfl]
    simp only [readIdentifier, reads]
    rw [word]
    rfl
  · refine ⟨by rw [afterWord_chars]; exact left, ?_, rfl⟩
    rw [afterWord_atLineStart, start, past_eq (by decide)]

/-- The word DESCRIPTION at the start of a line, indented or not. -/
theorem succeeds_description {blanks : List Char}
    (here : lexer.chars = blanks ++ ("DESCRIPTION".toList ++ rest))
    (blank : blanks.all fun c => c == ' ' || c == '\t')
      (apart : ∀ c ∈ rest.head?, isIdentChar c = false)
    (begun : lexer.atLineStart = true) :
    lexer.Succeeds ↔ (⟨rest, 0, 0, false, true⟩ : Lexer).Succeeds := by
  have word {lexer : Lexer} (here : lexer.chars = "DESCRIPTION".toList ++ rest) :
      lexer.Succeeds ↔ (⟨rest, 0, 0, false, true⟩ : Lexer).Succeeds := by
    obtain ⟨token, mid, read, kind, alike⟩ := step_description here apart
    rw [succeeds_of_step read (by simp [kind])]
    exact alike.succeeds_iff
  rcases blanks with _ | ⟨b, blanks⟩
  · exact word here
  · obtain ⟨later, reads, left, -⟩ := readWhile_append blank (by simp)
      (not_newline_of_all blank (by decide)) here
    have wide : 0 < ((b :: blanks).map fun c => if c = ' ' then 1 else 2).sum := by
      have filled : 0 < (if b = ' ' then 1 else 2) := by split <;> decide
      rw [List.map_cons, List.sum_cons]
      omega
    have opening :
      lexer.opened = (some ⟨.indent ((b :: blanks).map fun c => if c = ' ' then 1 else 2).sum,
        ⟨later.line, lexer.col, ((b :: blanks).map fun c => if c = ' ' then 1 else 2).sum⟩⟩,
        { later with atLineStart := false }) := by
      rw [opened, if_pos begun, readIndent, reads]
      dsimp only [peek]
      rw [left]
      exact if_pos ⟨wide, by decide⟩
    have read : lexer.step = .ok _ := (nextToken_eq 0).trans (by rw [opening])
    rw [succeeds_of_step read (by simp)]
    exact word left

/-- A source with free text behind the word DESCRIPTION, in front of a rest. -/
def descriptionSource (lines blanks body rest : List Char) : String :=
  String.ofList (lines ++ (blanks ++ ("DESCRIPTION".toList ++ (body ++ rest))))

/-- Without a leading byte-order mark. -/
def unmarked : List Char → List Char
  | '\uFEFF' :: rest => rest
  | chars => chars

/-- A new lexer stands at the start of the text, behind its byte order mark. -/
theorem new_eq (source : String) : Lexer.new source = { chars := unmarked source.toList } := by
  unfold Lexer.new
  cases source.toList with
  | nil => rfl
  | cons c rest =>
      by_cases mark : c = '\uFEFF'
      · subst mark
        rfl
      · simp [unmarked, mark]

/-- The byte order mark is looked for in front of the first line only. -/
theorem unmarked_append {lines text : List Char} (noMark : ∀ c ∈ text.head?, c ≠ '\uFEFF') :
    unmarked (lines ++ text) = unmarked lines ++ text := by
  rcases lines with _ | ⟨c, lines⟩
  · rw [List.nil_append]
    unfold unmarked
    split
    next rest => exact absurd rfl (noMark '\uFEFF' rfl)
    next => rfl
  · by_cases mark : c = '\uFEFF'
    · subst mark
      rfl
    · have kept (chars : List Char) : unmarked (c :: chars) = c :: chars := by
        unfold unmarked
        split
        next rest same => exact absurd (List.cons.inj same).1 mark
        next => rfl
      rw [List.cons_append, kept, kept, List.cons_append]

/-- Whole lines stay whole without their byte order mark. -/
theorem wholeLines_unmarked {lines : List Char} (whole : WholeLines lines) :
    WholeLines (unmarked lines) := by
  obtain rfl | ⟨lines, rfl⟩ := whole
  · exact .inl rfl
  · exact .inr ⟨unmarked lines, unmarked_append (by simp)⟩

/-- `lex` returns tokens exactly when the new lexer succeeds. -/
theorem lex_isOk_iff {source : String} :
    (lex source).isOk = true ↔ (Lexer.new source).Succeeds := by
  constructor
  · intro ok
    obtain ⟨read, done⟩ := Flow.exists_ok_of_isOk ok
    obtain ⟨run, runs, -⟩ := lex_eq_ok_iff.mp done
    exact ⟨run, runs⟩
  · rintro ⟨run, runs⟩
    have done : lex source = .ok (run.map Prod.fst) := lex_eq_ok_iff.mpr ⟨run, runs, rfl⟩
    rw [done]
    rfl

/-- The text behind free text: nothing, or other lines. -/
def OtherLines (rest : List Char) : Prop := rest = [] ∨ ∃ later, rest = '\n' :: later

/-- Free text and what stands behind it are lexed one after the other. -/
theorem succeeds_free_iff {body : List Char} (plain : NoSections body) (other : OtherLines rest) :
    (⟨body ++ rest, 0, 0, false, true⟩ : Lexer).Succeeds ↔
      Readable body ∧ (⟨rest, 0, 0, false, true⟩ : Lexer).Succeeds := by
  have free {body : List Char} (plain : NoSections body) : Free ⟨body, 0, 0, false, true⟩ :=
    ⟨rfl, fun start => absurd start (by simp), plain⟩
  have end_ : (⟨[], 0, 0, false, true⟩ : Lexer).Succeeds := by
    rw [Succeeds, (free rfl).run_iff, Readable]
    trivial
  obtain rfl | ⟨later, rfl⟩ := other
  · rw [List.append_nil, and_iff_left end_]
    exact (free plain).run_iff
  · -- both texts lead to the start of the same line
    have moved (line : Nat) : (⟨later, line, 1, true, true⟩ : Lexer).Succeeds ↔
      (⟨later, 0, 0, true, true⟩ : Lexer).Succeeds :=
      Alike.succeeds_iff ⟨rfl, rfl, rfl⟩
    have behind {body : List Char} (plain : NoSections body) :
      (⟨body ++ '\n' :: later, 0, 0, false, true⟩ : Lexer).Succeeds ↔
        Readable body ∧ (⟨later, 0, 0, true, true⟩ : Lexer).Succeeds := by
      rw [← (free plain).run_iff]
      constructor
      · rintro ⟨run, runs⟩
        obtain ⟨run', runs'⟩ := @Run.of_followed ⟨body, 0, 0, false, true⟩ later run runs
        refine ⟨⟨run', runs'⟩, ?_⟩
        obtain ⟨front, last, rfl, -⟩ := runs'.snoc
        obtain ⟨tail, runs'', -⟩ := runs'.followed_iff.mp runs
        have mode := (free plain).last_mode runs' last (by simp)
        rw [lineBreak_state runs', mode] at runs''
        exact (moved _).mp ⟨tail, runs''⟩
      · rintro ⟨⟨run', runs'⟩, succeeds⟩
        obtain ⟨front, last, rfl, -⟩ := runs'.snoc
        have mode := (free plain).last_mode runs' last (by simp)
        have next : (lineBreak later last).2.Succeeds := by
          rw [lineBreak_state runs', mode]
          exact (moved _).mpr succeeds
        obtain ⟨tail, runs''⟩ := next
        exact ⟨_, runs'.followed_iff.mpr ⟨tail, runs'', rfl⟩⟩
    have alone := @behind [] rfl
    rw [List.nil_append, and_iff_right (by rw [Readable]; trivial)] at alone
    rw [behind plain, alone]

/-- A source with free text is lexed exactly when the numbers of the text can be read, if the source
without it is lexed. -/
theorem freeText_lexes_iff {lines blanks body rest : List Char} (whole : WholeLines lines)
    (blank : blanks.all fun c => c == ' ' || c == '\t')
      (apart : ∀ c ∈ body.head?, isIdentChar c = false)
    (plain : NoSections body) (other : OtherLines rest)
    (removed : (lex (descriptionSource lines blanks [] rest)).isOk) :
    (lex (descriptionSource lines blanks body rest)).isOk ↔ Readable body := by
  have noMark (text : List Char) : ∀ c ∈ (blanks ++ ("DESCRIPTION".toList ++ text)).head?,
    c ≠ '\uFEFF' := by
    rintro c member rfl
    rcases blanks with _ | ⟨b, blanks⟩
    · cases member
    · obtain rfl : b = '\uFEFF' := by simpa using member
      simp at blank
  have opened_ (text : List Char) : Lexer.new (descriptionSource lines blanks text rest) =
      { chars := unmarked lines ++ (blanks ++ ("DESCRIPTION".toList ++ (text ++ rest))) } := by
    rw [new_eq, descriptionSource, String.toList_ofList, unmarked_append (noMark _)]
  have apart' {text : List Char} (apart : ∀ c ∈ text.head?, isIdentChar c = false) :
      ∀ c ∈ (text ++ rest).head?, isIdentChar c = false := by
    rcases text with _ | ⟨c, text⟩
    · obtain rfl | ⟨later, rfl⟩ := other
      · simp
      · intro c member
        obtain rfl : '\n' = c := by simpa using member
        decide
    · simpa using apart
  rw [lex_isOk_iff, opened_] at removed ⊢
  obtain ⟨line, mode, from_⟩ := exists_lineStart (wholeLines_unmarked whole) rfl removed rfl
  have reaches {text : List Char} (apart : ∀ c ∈ text.head?, isIdentChar c = false) :
      (⟨blanks ++ ("DESCRIPTION".toList ++ (text ++ rest)), line, 1, true, mode⟩ : Lexer).Succeeds ↔
        (⟨text ++ rest, 0, 0, false, true⟩ : Lexer).Succeeds :=
    succeeds_description rfl blank (apart' apart) rfl
  have removed' := (@reaches [] (by simp)).mp ((from_ _).mp removed)
  rw [List.nil_append] at removed'
  rw [from_, reaches apart, succeeds_free_iff plain other, and_iff_left removed']

/-- `BEHAVIOR a`, quotes and numbers. -/
theorem freeText_lexes_iff_quotes :
    (lex (descriptionSource "BEHAVIOR a\n".toList [] "\n  say \"hi, 12 or 1.5.2".toList
      "\nEND\n".toList)).isOk ↔
      Readable "\n  say \"hi, 12 or 1.5.2".toList :=
  freeText_lexes_iff (.inr ⟨"BEHAVIOR a".toList, rfl⟩) rfl
    (fun c member => by obtain rfl : '\n' = c := by simpa using member
                        decide)
    (by decide +kernel) (.inr ⟨"END\n".toList, rfl⟩) (by decide +kernel)

/-- A `0x` without digits in free text. -/
theorem freeText_prefix_not_lexed :
    NoSections "\n  colors in 0xRRGGBB".toList = true ∧
      (lex (descriptionSource "BEHAVIOR a\n".toList [] [] "\nEND\n".toList)).isOk = true ∧
      (lex (descriptionSource "BEHAVIOR a\n".toList [] "\n  colors in 0xRRGGBB".toList
        "\nEND\n".toList)).isOk = false := by
  decide +kernel

end Sources

end Lexer

end Sigil
