import Sigil.Lexer.Columns
import Sigil.Preimage

/-!
# Source files

A source file finds its lines, and the text of a span, by byte offsets into its content. What
it returns is a part of the content.
-/

namespace Sigil

/-- A part of a text by its byte offsets. -/
structure Slice where
  start : Nat
  stop : Nat
  deriving DecidableEq, Repr

/-- A source file with the places its lines start at. -/
structure SourceFile where
  content : String
  lineStarts : List Nat

namespace SourceFile

/-- The offsets behind the line breaks of characters that start at `i`. -/
def lineStartsFrom (i : Nat) : List Char → List Nat
  | [] => []
  | c :: rest =>
      if c = '\n' then (i + 1) :: lineStartsFrom (i + c.utf8Size) rest
      else lineStartsFrom (i + c.utf8Size) rest

def computeLineStarts (content : String) : List Nat := 0 :: lineStartsFrom 0 content.toList

def new (content : String) : SourceFile := ⟨content, computeLineStarts content⟩

def bytes (file : SourceFile) : List UInt8 := utf8Bytes file.content

/-- A byte that continues a character. -/
def isContinuation (b : UInt8) : Bool := 0x80 ≤ b && b < 0xC0

def isCharBoundary (file : SourceFile) (i : Nat) : Bool :=
  if i = 0 then true
  else match file.bytes[i]? with
    | some b => !isContinuation b
    | none => i = file.bytes.length

/-- The part from `start` to `stop` of a part; none where the index panics. -/
def slice (file : SourceFile) (part : Slice) (start stop : Nat) : Option Slice :=
  if start ≤ stop ∧ stop ≤ part.stop - part.start ∧ file.isCharBoundary (part.start + start) ∧
      file.isCharBoundary (part.start + stop) then
    some ⟨part.start + start, part.start + stop⟩
  else none

/-- The end of a line: the break in front of the next line start, or the end of the content. -/
def lineEnd (file : SourceFile) (idx : Nat) : Option Nat :=
  if idx + 1 < file.lineStarts.length then do
    let next ← file.lineStarts[idx + 1]?
    some (if next > 0 ∧ file.bytes[next - 1]? = some 10 then next - 1 else next)
  else some file.bytes.length

/-- A line by its number, without the break that ends it; none where it panics. -/
def getLine (file : SourceFile) (lineNum : Nat) : Option (Option Slice) :=
  if lineNum = 0 ∨ lineNum > file.lineStarts.length then some none
  else do
    let idx := lineNum - 1
    let start ← file.lineStarts[idx]?
    let stop ← file.lineEnd idx
    let actualEnd := if stop > start ∧ file.bytes[stop - 1]? = some 13 then stop - 1 else stop
    let line ← file.slice ⟨0, file.bytes.length⟩ start actualEnd
    some (some line)

/-- The text of a span; none where it panics. -/
def getSpanText (file : SourceFile) (span : Span) : Option (Option Slice) := do
  match ← file.getLine span.line with
  | none => some none
  | some line =>
      let colStart := span.col - 1
      let colEnd := colStart + span.len
      let len := line.stop - line.start
      if colStart ≥ len then some none
      else
        let actualEnd := min colEnd len
        let text ← file.slice line colStart actualEnd
        some (some text)

section LineStarts

variable {i : Nat} {u v head line tail : List Char}

/-- The line starts of a text followed by another. -/
theorem lineStartsFrom_append : lineStartsFrom i (u ++ v) =
    lineStartsFrom i u ++ lineStartsFrom (i + byteLen u) v := by
  induction u generalizing i with
  | nil => rfl
  | cons c u ih =>
      simp only [List.cons_append, lineStartsFrom, ih, byteLen_cons, Nat.add_assoc]
      split <;> rfl

/-- There is one line start behind each line break. -/
theorem length_lineStartsFrom : (lineStartsFrom i u).length = u.count '\n' := by
  induction u generalizing i with
  | nil => rfl
  | cons c u ih =>
      by_cases line : c = '\n'
      · simp [lineStartsFrom, line, ih]
      · simp [lineStartsFrom, line, ih]

/-- Inside a line no line starts. -/
theorem lineStartsFrom_line (inLine : '\n' ∉ u) : lineStartsFrom i u = [] := by
  rw [← List.length_eq_zero_iff, length_lineStartsFrom, List.count_eq_zero]
  exact inLine

/-- A text that is empty or ends a line. -/
def EndsLine (head : List Char) : Prop := head = [] ∨ ∃ lines, head = lines ++ ['\n']

/-- The last line start of a text that ends a line is its end. -/
theorem lineStarts_head (ends : EndsLine head) :
    ∃ front, 0 :: lineStartsFrom 0 head = front ++ [byteLen head] ∧ front.length =
      head.count '\n' := by
  rcases ends with rfl | ⟨lines, rfl⟩
  · exact ⟨[], rfl, rfl⟩
  · refine ⟨0 :: lineStartsFrom 0 lines, ?_, ?_⟩
    · rw [lineStartsFrom_append]
      simp [lineStartsFrom, show '\n'.utf8Size = 1 from rfl]
    · simp [length_lineStartsFrom]

/-- The line starts around a line. -/
theorem lineStarts_line (ends : EndsLine head) (inLine : '\n' ∉ line) :
    ∃ front, 0 :: lineStartsFrom 0 (head ++ (line ++ tail)) =
        front ++ byteLen head :: lineStartsFrom (byteLen head + byteLen line) tail ∧
      front.length = head.count '\n' := by
  obtain ⟨front, starts, length⟩ := lineStarts_head ends
  refine ⟨front, ?_, length⟩
  rw [lineStartsFrom_append, ← List.cons_append, starts, lineStartsFrom_append,
    lineStartsFrom_line inLine]
  simp

end LineStarts

section Boundaries

variable {file : SourceFile} {u v : List Char} {c : Char} {b : UInt8}

/-- The encoded text has the text's length in bytes. -/
theorem length_encodeChars (text : List Char) : (encodeChars text).length = byteLen text := by
  induction text with
  | nil => rfl
  | cons c text ih =>
      rw [encodeChars, List.flatMap_cons, List.length_append,
        String.length_utf8EncodeChar, byteLen_cons]
      exact congrArg _ ih

/-- The bytes of a file split where its text does. -/
theorem bytes_eq (split : file.content.toList = u ++ v) :
    file.bytes = encodeChars u ++ encodeChars v := by
  rw [bytes, utf8Bytes_eq, split, encodeChars_append]

/-- The bytes of a file are as many as its text takes. -/
theorem length_bytes (split : file.content.toList = u) : file.bytes.length = byteLen u := by
  rw [bytes, utf8Bytes_eq, split, length_encodeChars]

/-- The first byte of a character is no continuation byte. -/
theorem first_not_continuation (first : b.IsUTF8FirstByte) : isContinuation b = false := by
  have all : ∀ v : BitVec 8, (UInt8.ofBitVec v).IsUTF8FirstByte →
    isContinuation (UInt8.ofBitVec v) = false := by
    decide +kernel
  exact all b.toBitVec first

/-- The bytes of a character inside the content. -/
theorem bytes_getElem? {k : Nat} (split : file.content.toList = u ++ c :: v)
    (inside : k < (String.utf8EncodeChar c).length) :
    file.bytes[byteLen u + k]? = some (String.utf8EncodeChar c)[k] := by
  rw [bytes_eq split, ← length_encodeChars, List.getElem?_append_right (Nat.le_add_right ..),
    Nat.add_sub_cancel_left,
    encodeChars, List.flatMap_cons, List.getElem?_append_left inside,
      List.getElem?_eq_getElem inside]

/-- Between two characters there is a boundary. -/
theorem isCharBoundary_split (split : file.content.toList = u ++ v) :
    file.isCharBoundary (byteLen u) = true := by
  unfold isCharBoundary
  split_ifs
  · rfl
  · cases v with
    | nil =>
        have length : file.bytes.length = byteLen u := length_bytes (by simpa using split)
        rw [List.getElem?_eq_none length.le]
        simpa using length.symm
    | cons c v =>
        have inside : 0 < (String.utf8EncodeChar c).length := by simp [c.utf8Size_pos]
        have byte := bytes_getElem? split inside
        rw [Nat.add_zero] at byte
        have first : isContinuation (String.utf8EncodeChar c)[0] = false :=
          first_not_continuation (UInt8.isUTF8FirstByte_getElem_utf8EncodeChar.mpr rfl)
        simp [byte, first]

/-- The last byte of a character is a line break or a carriage return for that character only. -/
theorem last_byte {d : Char} (one : String.utf8EncodeChar d = [b]) (first : b.IsUTF8FirstByte)
    (split : file.content.toList = u ++ c :: v) :
    file.bytes[byteLen (u ++ [c]) - 1]? = some b ↔ c = d := by
  have positive := c.utf8Size_pos
  have length : (String.utf8EncodeChar c).length = c.utf8Size := String.length_utf8EncodeChar c
  have inside : c.utf8Size - 1 < (String.utf8EncodeChar c).length := by omega
  have place : byteLen (u ++ [c]) - 1 = byteLen u + (c.utf8Size - 1) := by
    rw [byteLen_append, byteLen_cons, byteLen_nil]
    omega
  rw [place, bytes_getElem? split inside, Option.some_inj]
  constructor
  · intro same
    have start : c.utf8Size - 1 = 0 := UInt8.isUTF8FirstByte_getElem_utf8EncodeChar.mp
      (same ▸ first)
    have single : String.utf8EncodeChar c = [b] := by
      obtain ⟨x, shown⟩ := List.length_eq_one_iff.mp
        (show (String.utf8EncodeChar c).length = 1 by omega)
      simp only [shown, start, List.getElem_cons_zero] at same
      rw [shown, same]
    have codes : encodeChars [c] = encodeChars [d] := by simp [encodeChars, single, one]
    simpa using encodeChars_injective codes
  · rintro rfl
    simp [one]

end Boundaries

section Lines

variable {content : String} {head line tail : List Char}

/-- A line without the carriage return of a Windows line ending. -/
def stripCr (line : List Char) : List Char :=
    if line.getLast? = some '\r' then line.dropLast else line

/-- Stripping the carriage return leaves a prefix of the line. -/
theorem stripCr_prefix (line : List Char) : stripCr line <+: line := by
  unfold stripCr
  split
  · exact List.dropLast_prefix line
  · exact List.prefix_refl line

/-- A part between boundaries. -/
theorem slice_split {file : SourceFile} {part : Slice} {start stop : Nat} (le : start ≤ stop)
    (inside : stop ≤ part.stop - part.start)
    (before : file.isCharBoundary (part.start + start) = true)
      (behind : file.isCharBoundary (part.start + stop) = true) :
    file.slice part start stop = some ⟨part.start + start, part.start + stop⟩ :=
      if_pos ⟨le, inside, before, behind⟩

/-- What stands in front of the break is no carriage return exactly when nothing is dropped. -/
theorem stripCr_end {file : SourceFile} (split : file.content.toList = head ++ (line ++ tail)) :
    (if byteLen head + byteLen line > byteLen head ∧
      file.bytes[byteLen head + byteLen line - 1]? = some 13 then
      byteLen head + byteLen line - 1 else byteLen head + byteLen line) = byteLen head + byteLen
        (stripCr line) := by
  rcases List.eq_nil_or_concat line with rfl | ⟨front, c, rfl⟩
  · simp [stripCr]
  · rw [List.concat_eq_append] at split ⊢
    have last := @last_byte file (head ++ front) tail c 13 '\r' rfl (by decide)
      (by rw [split]; simp)
    have positive := c.utf8Size_pos
    have place : byteLen (head ++ front ++ [c]) = byteLen head + byteLen (front ++ [c]) := by simp
    rw [place] at last
    have more : byteLen head + byteLen (front ++ [c]) > byteLen head := by simp; omega
    by_cases cr : c = '\r'
    · rw [if_pos ⟨more, last.mpr cr⟩]
      subst cr
      have size : '\r'.utf8Size = 1 := rfl
      simp [stripCr, size]
    · rw [if_neg fun both => cr (last.mp both.2)]
      simp [stripCr, cr]

section Line

variable (split : content.toList = head ++ (line ++ tail)) (starts : EndsLine head)
  (inLine : '\n' ∉ line)
  (ends : ∀ c ∈ tail.head?, c = '\n')

include split starts inLine

/-- The line starts around a line, its own among them. -/
theorem lineStarts_eq : ∃ front, front.length = head.count '\n' ∧
    (new content).lineStarts = front ++ byteLen head :: lineStartsFrom
      (byteLen head + byteLen line) tail := by
  obtain ⟨front, lines, length⟩ := @lineStarts_line head line tail starts inLine
  refine ⟨front, length, ?_⟩
  rw [← lines, ← split]
  rfl

include ends

/-- The end of a line is in front of its line break. -/
theorem lineEnd_eq : (new content).lineEnd (head.count '\n') =
    some (byteLen head + byteLen line) := by
  obtain ⟨front, length, lineStarts⟩ := lineStarts_eq split starts inLine
  have split' : (new content).content.toList = head ++ (line ++ tail) := split
  unfold lineEnd
  cases tail with
  | nil =>
      have last : ¬ head.count '\n' + 1 < (new content).lineStarts.length := by
        rw [lineStarts, List.length_append, length]
        simp [lineStartsFrom]
      rw [if_neg last, length_bytes split']
      simp
  | cons c tail =>
      obtain rfl : c = '\n' := ends c rfl
      have next : (new content).lineStarts[head.count '\n' + 1]? =
        some (byteLen head + byteLen line + 1) := by
        rw [lineStarts, ← length]
        simp [lineStartsFrom]
      have more : head.count '\n' + 1 < (new content).lineStarts.length :=
        (List.getElem?_eq_some_iff.mp next).1
      have byte :=
        (@last_byte (new content) (head ++ line) tail '\n' 10 '\n' rfl (by decide)
          (by rw [split']; simp)).mpr rfl
      have place : byteLen (head ++ line ++ ['\n']) - 1 = byteLen head + byteLen line + 1 - 1 := by
        simp [show '\n'.utf8Size = 1 from rfl]
      rw [place] at byte
      rw [if_pos more, next, Option.bind_eq_bind, Option.bind_some, if_pos ⟨Nat.succ_pos _, byte⟩]
      rfl

/-- A line of the content. -/
theorem getLine_eq : (new content).getLine (head.count '\n' + 1) =
    some (some ⟨byteLen head, byteLen head + byteLen (stripCr line)⟩) := by
  obtain ⟨front, length, lineStarts⟩ := lineStarts_eq split starts inLine
  have split' : (new content).content.toList = head ++ (line ++ tail) := split
  have start : (new content).lineStarts[head.count '\n']? = some (byteLen head) := by
    rw [lineStarts, ← length]
    simp
  have inside :
    ¬ (head.count '\n' + 1 = 0 ∨ head.count '\n' + 1 > (new content).lineStarts.length) := by
    rw [lineStarts, List.length_append, length, List.length_cons]
    omega
  obtain ⟨cut, dropped⟩ := stripCr_prefix line
  have whole : (new content).content.toList = head ++ stripCr line ++ (cut ++ tail) := by
    rw [split']
    conv_lhs => rw [← dropped]
    simp
  have total := congrArg byteLen dropped
  have size : (new content).bytes.length = byteLen head + (byteLen line + byteLen tail) := by
    rw [length_bytes split', byteLen_append, byteLen_append]
  have boundary := isCharBoundary_split split'
  have boundary' := isCharBoundary_split whole
  rw [byteLen_append] at boundary' total
  unfold getLine
  rw [if_neg inside]
  simp only [Nat.add_sub_cancel, start, lineEnd_eq split starts inLine ends, stripCr_end split',
    Option.bind_eq_bind,
    Option.bind_some]
  rw [slice_split (by omega) (by simp only [size]; omega) (by simpa using boundary)
    (by simpa using boundary')]
  simp

end Line

end Lines

end SourceFile

end Sigil
