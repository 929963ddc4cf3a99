import Sigil.SourceFile

/-!
# The text of spans

A span starts as many characters into its line as the lexer has counted, and the source file
takes them for bytes. A byte-order mark is bytes of the source file and no character of the
lexer, and a string literal is counted without its backslashes.
-/

namespace Sigil

open Lexer

namespace Lexer

variable {source : String} {front text before rest : List Char} {token : Token}

/-- A token that the lexer reads in a source, what stands in front of it and the characters it is
read from. -/
def ReadFrom (source : String) (front text : List Char) (token : Token) : Prop :=
  ∃ lexer after, Reaches (Lexer.new source) lexer ∧ lexer.step = .ok (token, after) ∧
    lexer.tokenStart.chars = text ++ after.chars ∧ source.toList = front ++ (text ++ after.chars)

/-- The byte-order mark, where there is one, is in front of what the lexer reads. -/
theorem new_chars (source : String) : ∃ mark, (mark = [] ∨ mark = ['\uFEFF']) ∧
    source.toList = mark ++ (Lexer.new source).chars ∧ StandsBehind [] (Lexer.new source) := by
  unfold Lexer.new
  split
  next rest text => exact ⟨['\uFEFF'], .inr rfl, text, rfl, rfl⟩
  next => exact ⟨[], .inl rfl, rfl, rfl, rfl⟩

/-- Where a token starts, and that its span covers it from there on. -/
theorem ReadFrom.covers (read : ReadFrom source front text token) (spanned : Spanned token.kind) :
    ∃ mark before, (mark = [] ∨ mark = ['\uFEFF']) ∧ front = mark ++ before ∧ text ≠ [] ∧
      '\n' ∉ text ∧
      Covers (before.count '\n' + 1) ((lineSoFar before).length + 1) text token.span := by
  obtain ⟨lexer, after, reaches, step, chars, whole⟩ := read
  obtain ⟨mark, known, split, new⟩ := new_chars source
  obtain ⟨used, chars', stands⟩ := reaches.standsBehind new
  obtain ⟨skipped, start⟩ := @moves_tokenStart lexer
  obtain ⟨text', some_, moves, covers⟩ := (step_passes step).2 spanned
  obtain rfl : text = text' := List.append_cancel_right (chars.symm.trans moves.chars)
  have behind := stands.moves start
  rw [List.nil_append] at behind
  refine ⟨mark, used ++ skipped, known, ?_, some_, moves.inLine, ?_⟩
  · rw [split, chars', start.chars, chars, ← List.append_assoc, ← List.append_assoc,
      List.append_assoc mark] at whole
    exact (List.append_cancel_right whole).symm
  · rw [← behind.line, ← behind.col]
    exact covers

/-- Every token of a run is read in a state that the lexer reaches. -/
theorem Reaches.run {lexer start : Lexer} {run : List (Token × Lexer)} (runs : Run lexer run)
    (reaches : Reaches start lexer) :
    ∀ read ∈ run, ∃ before, Reaches start before ∧ before.step = .ok read := by
  induction runs with
  | last read => exact List.forall_mem_singleton.mpr ⟨_, reaches, read⟩
  | more read _ _ ih => exact List.forall_mem_cons.mpr ⟨⟨_, reaches, read⟩, ih (reaches.step read)⟩

end Lexer

section Lines

variable {front head line before mark : List Char}

/-- Behind whole lines the line so far is the text of the line. -/
theorem lineSoFar_line (ends : SourceFile.EndsLine head) (inLine : '\n' ∉ line) :
    lineSoFar (head ++ line) = line := by
  rw [lineSoFar_append inLine]
  rcases ends with rfl | ⟨lines, rfl⟩ <;> simp [lineSoFar]

/-- The characters the lexer has counted are the bytes in front exactly when each is one byte and
no byte-order mark is among them. -/
theorem column_le (known : mark = [] ∨ mark = ['\uFEFF']) :
    (lineSoFar before).length ≤ byteLen (lineSoFar (mark ++ before)) ∧
      ((lineSoFar before).length = byteLen (lineSoFar (mark ++ before)) ↔
        ∀ c ∈ lineSoFar (mark ++ before), c.utf8Size = 1) := by
  have plain := length_le_byteLen (lineSoFar before)
  rcases known with rfl | rfl
  · exact ⟨plain, length_eq_byteLen_iff⟩
  · obtain ⟨head, split, ends⟩ := lineSoFar_split before
    have inLine := @newline_notMem_lineSoFar before
    rcases ends with rfl | ⟨lines, rfl⟩
    · rw [List.nil_append] at split
      have whole : '\n' ∉ before := split ▸ inLine
      have first : lineSoFar (['\uFEFF'] ++ before) = '\uFEFF' :: before :=
        lineSoFar_eq (by simpa using whole)
      have size : '\uFEFF'.utf8Size = 3 := rfl
      rw [← split] at plain
      rw [first, ← split, byteLen_cons, size, List.forall_mem_cons, size]
      exact ⟨by omega, by omega⟩
    · have other : lineSoFar (['\uFEFF'] ++ before) = lineSoFar before := by
        conv_lhs => rw [split, ← List.append_assoc]
        exact lineSoFar_line (.inr ⟨['\uFEFF'] ++ lines, by simp⟩) inLine
      rw [other]
      exact ⟨plain, length_eq_byteLen_iff⟩

end Lines

namespace SourceFile

variable {source : String} {front text rest u r : List Char} {token : Token} {span : Span} {n : Nat}

/-- A carriage return is dropped from behind a token only. -/
theorem stripCr_text (some_ : text ≠ []) (last : text.getLast? ≠ some '\r') :
    ∃ r', stripCr (u ++ (text ++ r)) = u ++ (text ++ r') := by
  rcases List.eq_nil_or_concat r with rfl | ⟨r', c, rfl⟩
  · refine ⟨[], ?_⟩
    obtain ⟨c, ends⟩ : ∃ c, text.getLast? = some c := ⟨_, List.getLast?_eq_some_getLast some_⟩
    have other : (u ++ text).getLast? ≠ some '\r' := by
      rwa [List.getLast?_append, ends, Option.some_or, ← ends]
    rw [List.append_nil, stripCr, if_neg other]
  · unfold stripCr
    split
    · exact ⟨r', by rw [List.concat_eq_append, ← List.append_assoc text, ← List.append_assoc u, List.dropLast_concat]⟩
    · exact ⟨_, rfl⟩

/-- Where a span is read from the bytes of its token. -/
theorem getSpanText_eq_iff (split : source.toList = front ++ (text ++ rest)) (some_ : text ≠ [])
    (inLine : '\n' ∉ text)
    (covers : Covers (front.count '\n' + 1) (n + 1) text span)
      (le : n ≤ byteLen (lineSoFar front)) :
    (new source).getSpanText span = some (some ⟨byteLen front, byteLen front + byteLen text⟩) ↔
      n = byteLen (lineSoFar front) ∧ '\\' ∉ text := by
  obtain ⟨head, parts, starts⟩ := lineSoFar_split front
  obtain ⟨r', stripped⟩ := @stripCr_text text (lineSoFar front) (rest.takeWhile (· ≠ '\n'))
    some_ covers.last
  have content : source.toList = head ++
    ((lineSoFar front ++ (text ++ rest.takeWhile (· ≠ '\n'))) ++
      rest.dropWhile (· ≠ '\n')) := by
    rw [split]
    conv_lhs => rw [parts, ← @List.takeWhile_append_dropWhile _ (· ≠ '\n') rest]
    simp
  have inLine' : '\n' ∉ lineSoFar front ++ (text ++ rest.takeWhile (· ≠ '\n')) := by
    have behind : '\n' ∉ rest.takeWhile (· ≠ '\n') := fun member => by
      simpa using List.mem_takeWhile_imp member
    simp only [List.mem_append, not_or]
    exact ⟨newline_notMem_lineSoFar, inLine, behind⟩
  have ends : ∀ c ∈ (rest.dropWhile (· ≠ '\n')).head?, c = '\n' := fun c first => by
    have stop := List.head?_dropWhile_not (· ≠ '\n') rest
    rw [first] at stop
    simpa using stop
  have count : front.count '\n' = head.count '\n' := by
    conv_lhs => rw [parts, List.count_append, List.count_eq_zero.mpr newline_notMem_lineSoFar]
    rfl
  have line := getLine_eq content starts inLine' ends
  have total : byteLen front = byteLen head + byteLen (lineSoFar front) := by
    conv_lhs => rw [parts, byteLen_append]
  have positive : 0 < byteLen text :=
    (List.length_pos_iff.mpr some_).trans_le (length_le_byteLen text)
  have short := covers.le
  have boundary := @isCharBoundary_split (new source) _ _ split
  have boundary' := @isCharBoundary_split (new source) (front ++ text) rest
    (by rw [List.append_assoc]; exact split)
  rw [byteLen_append] at boundary'
  rw [stripped, byteLen_append, byteLen_append, ← count, ← covers.line] at line
  rw [← covers.whole]
  unfold getSpanText
  rw [line, covers.col, total]
  rw [total] at boundary boundary'
  generalize byteLen head = H at *
  generalize byteLen (lineSoFar front) = B at *
  generalize byteLen text = T at *
  generalize byteLen r' = R at *
  simp only [Option.bind_eq_bind, Option.bind_some, Nat.add_sub_cancel, Nat.add_sub_cancel_left]
  constructor
  · intro result
    split_ifs at result with outside
    · cases result
    · unfold slice at result
      split_ifs at result
      · simp only [Option.bind_some, Option.some.injEq, Slice.mk.injEq] at result
        omega
      · cases result
  · rintro ⟨rfl, whole⟩
    rw [whole, if_neg (by omega), Nat.min_eq_left (by omega),
      slice_split (by omega) (by simp only; omega) boundary
        (by simpa only [Nat.add_assoc] using boundary')]
    simp only [Option.bind_some, Nat.add_assoc]

/-- The text of a token's span is the token's own part of the source exactly when the characters
in front of it in its line are one byte each, a byte-order mark counted with them, and no
backslash is in the token. -/
theorem getSpanText_readFrom_iff (read : ReadFrom source front text token)
    (spanned : Spanned token.kind) :
    (new source).getSpanText token.span =
      some (some ⟨byteLen front, byteLen front + byteLen text⟩) ↔
      (∀ c ∈ lineSoFar front, c.utf8Size = 1) ∧ '\\' ∉ text := by
  obtain ⟨_, after, -, -, -, split⟩ := id read
  obtain ⟨mark, before, known, rfl, some_, inLine, covers⟩ := read.covers spanned
  obtain ⟨le, single⟩ := @column_le before mark known
  have count : (mark ++ before).count '\n' = before.count '\n' := by
    rcases known with rfl | rfl <;> simp
  rw [← count] at covers
  rw [getSpanText_eq_iff split some_ inLine covers le, single]

/-- A string literal and a name. -/
def literalThenName (literal : String) : String := literal ++ "x"

/-- The name behind the string literal is read from its one character. -/
theorem readFrom_name : ReadFrom (literalThenName "\"ab\"") "\"ab\"".toList ['x']
    ⟨.identifier "x", ⟨1, 5, 1⟩⟩ := by
  refine ⟨⟨['x'], 1, 5, false, false⟩, ⟨[], 1, 6, false, false⟩,
    ?_, by decide +kernel, by decide +kernel, by decide +kernel⟩
  exact .step .refl (show (Lexer.new (literalThenName "\"ab\"")).step =
    .ok (⟨.stringLit "ab", ⟨1, 1, 4⟩⟩, ⟨['x'], 1, 5, false, false⟩) by decide +kernel)

/-- A name behind a string literal. -/
theorem getSpanText_readFrom_iff_name :
    (new (literalThenName "\"ab\"")).getSpanText ⟨1, 5, 1⟩ =
        some (some ⟨byteLen "\"ab\"".toList, byteLen "\"ab\"".toList + byteLen ['x']⟩) ↔
      (∀ c ∈ lineSoFar "\"ab\"".toList, c.utf8Size = 1) ∧ '\\' ∉ ['x'] :=
  getSpanText_readFrom_iff readFrom_name trivial

/-- Behind two characters of two bytes a name's span starts inside the second. -/
theorem getSpanText_panics : ∃ source front text token, ReadFrom source front text token ∧
    Spanned token.kind ∧
    (new source).getSpanText token.span = none := by
  refine ⟨literalThenName "\"éé\"", "\"éé\"".toList, ['x'], ⟨.identifier "x", ⟨1, 5, 1⟩⟩, ?_,
    trivial, by decide +kernel⟩
  refine ⟨⟨['x'], 1, 5, false, false⟩, ⟨[], 1, 6, false, false⟩,
    ?_, by decide +kernel, by decide +kernel, by decide +kernel⟩
  exact .step .refl (show (Lexer.new (literalThenName "\"éé\"")).step =
    .ok (⟨.stringLit "éé", ⟨1, 1, 6⟩⟩, ⟨['x'], 1, 5, false, false⟩) by decide +kernel)

end SourceFile

end Sigil
