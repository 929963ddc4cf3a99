import Sigil.Flow.Json
import Sigil.Preimage
import Sigil.Stdlib.Trim

/-!
# The behavior `json/parse`

It looks at one character behind the leading whitespace. One that opens an object, an array,
a string or a number is accepted whatever follows it, and there is no branch for `true`,
`false` and `null`.
-/

namespace Sigil.Stdlib

open Flow

/-- `skip_ws` and `inc_pos` -/
def skipWsBody (json : Allocation 8192) (pos : Register) : Option (Register ⊕ Register) := do
  let byte ← json.load 1 pos
  if isWhitespace byte then return .inl (pos + 1)
  return .inr pos

/-- The branches for the types up to `success`: the root, one element and the status -/
def parseElement (tag out_pos elem_count pos : Register) (parsed : Allocation 4096) :
    Option (Allocation 4096 × Register) := do
  let parsed ← parsed.store 1 1 0
  let parsed ← parsed.store tag 1 1
  let parsed ← parsed.store tag 1 out_pos
  let next := out_pos + 1
  let parsed ← parsed.store pos 2 next
  let new_ec := elem_count + 1
  let parsed ← parsed.store new_ec 2 2
  return (parsed, 0)

def parseObject := parseElement 1

def parseArray := parseElement 2

def parseString := parseElement 3

def parseNumber := parseElement 4

def parseError (parsed : Allocation 4096) : Option (Allocation 4096 × Register) := do
  let parsed ← parsed.store 0 1 0
  return (parsed, -1)

/-- The output and the status -/
def jsonParse (fuel : Nat) (json : Allocation 8192) (parsed : Allocation 4096) :
    Option (Allocation 4096 × Register) := do
  let out_pos : Register := 4
  let elem_count : Register := 0
  let pos ← exits (skipWsBody json) fuel 0
  let byte ← json.load 1 pos
  if byte = 123 then parseObject out_pos elem_count pos parsed
  else if byte = 91 then parseArray out_pos elem_count pos parsed
  else if byte = 34 then parseString out_pos elem_count pos parsed
  else if byte = 45 || (ige byte 48 && ile byte 57) then parseNumber out_pos elem_count pos parsed
  else parseError parsed

section Texts

/-- A byte for which there is a branch. -/
def IsOpener (c : UInt8) : Prop := c = 123 ∨ c = 91 ∨ c = 34 ∨ c = 45 ∨ (48 ≤ c ∧ c ≤ 57)

instance : DecidablePred IsOpener := fun c =>
  inferInstanceAs (Decidable (c = 123 ∨ c = 91 ∨ c = 34 ∨ c = 45 ∨ (48 ≤ c ∧ c ≤ 57)))

/-- The first character behind the leading whitespace. -/
def firstChar (text : List UInt8) : Option UInt8 := text.find? fun c => ¬ IsSpace c

/-- A text that starts, behind whitespace, like an object, an array, a string or a number. -/
def Opens (text : List UInt8) : Prop := ∃ c ∈ firstChar text, IsOpener c

instance : DecidablePred Opens := fun text =>
  decidable_of_iff ((firstChar text).any fun c => decide (IsOpener c)) (by
    cases first : firstChar text <;> simp [Opens, first])

/-- A JSON text in UTF-8. -/
def IsJson (text : List UInt8) : Prop := ∃ chars, Json.Element chars ∧ encodeChars chars = text

/-- `true`, `false` or `null` in whitespace. -/
def IsLiteral (text : List UInt8) : Prop := ∃ before literal behind, Json.Space before ∧
  Json.Literal literal ∧ Json.Space behind ∧ encodeChars (before ++ literal ++ behind) = text

variable {text : List UInt8} {before rest : List Char} {c : Char} {b : UInt8}

/-- What opens a value is no blank. -/
theorem IsOpener.not_isSpace (opener : IsOpener b) : ¬ IsSpace b := by
  rintro (rfl | rfl | rfl | rfl) <;> exact absurd opener (by decide)

/-- White space is encoded as one blank byte. -/
theorem encode_ws (blank : Json.IsWs c) : ∃ b, String.utf8EncodeChar c = [b] ∧ IsSpace b := by
  rcases blank with rfl | rfl | rfl | rfl <;> exact ⟨_, rfl, by decide⟩

/-- The character that opens a value is encoded as one byte that does. -/
theorem encode_opener (opener : Json.Opener c) :
    ∃ b, String.utf8EncodeChar c = [b] ∧ IsOpener b := by
  rcases opener with rfl | rfl | rfl | rfl | digit
  · exact ⟨_, rfl, by decide⟩
  · exact ⟨_, rfl, by decide⟩
  · exact ⟨_, rfl, by decide⟩
  · exact ⟨_, rfl, by decide⟩
  · have inside : isIdentChar c := by simp [isIdentChar, Char.isAlphanum, digit]
    have head := forall_isIdentChar (P :=
      fun c => c.isDigit → ∃ b ∈ (String.utf8EncodeChar c).head?,
      String.utf8EncodeChar c = [b] ∧ IsOpener b) (by decide) inside digit
    obtain ⟨b, -, coded, opener⟩ := head
    exact ⟨b, coded, opener⟩

/-- Whitespace is skipped. -/
theorem firstChar_encodeChars (blank : Json.Space before) (coded : String.utf8EncodeChar c = [b])
    (char : ¬ IsSpace b) : firstChar (encodeChars (before ++ c :: rest)) = some b := by
  have spaces : ∀ x ∈ encodeChars before, IsSpace x := by
    intro x member
    obtain ⟨w, one, inside⟩ := List.mem_flatMap.mp member
    obtain ⟨x', coded', space⟩ := encode_ws (blank w one)
    rw [coded', List.mem_singleton] at inside
    exact inside ▸ space
  refine List.find?_eq_some_iff_append.mpr
    ⟨by simpa using char, encodeChars before, encodeChars rest, ?_, ?_⟩
  · rw [encodeChars_append, encodeChars, encodeChars, encodeChars, List.flatMap_cons, coded]
    rfl
  · simpa using spaces

/-- A JSON text is a literal or starts like another value. -/
theorem IsJson.literal_or_opens (json : IsJson text) : IsLiteral text ∨ Opens text := by
  obtain ⟨chars, element, rfl⟩ := json
  cases element with
  | @mk before text behind blank value blank' =>
    rcases value.literal_or_opens with literal | ⟨c, rest, rfl, opener⟩
    · exact .inl ⟨before, text, behind, blank, literal, blank', rfl⟩
    · obtain ⟨b, coded, opener⟩ := encode_opener opener
      refine .inr ⟨b, ?_, opener⟩
      rw [List.append_assoc, List.cons_append]
      exact firstChar_encodeChars blank coded opener.not_isSpace

/-- A literal is a JSON text. -/
theorem IsLiteral.isJson (literal : IsLiteral text) : IsJson text := by
  obtain ⟨before, literal, behind, blank, known, blank', rfl⟩ := literal
  exact ⟨_, .mk blank (.literal known) blank', rfl⟩

/-- A literal does not begin as the parser expects a value to. -/
theorem IsLiteral.not_opens (literal : IsLiteral text) : ¬ Opens text := by
  rintro ⟨b, first, opener⟩
  obtain ⟨before, literal, behind, blank, known, -, rfl⟩ := literal
  obtain ⟨c, rest, rfl, letter⟩ := known.closed
  rw [List.append_assoc, List.cons_append] at first
  simp only [List.mem_cons, List.not_mem_nil, or_false] at letter
  rcases letter with rfl | rfl | rfl
  all_goals
    rw [firstChar_encodeChars blank rfl (by decide)] at first
    obtain rfl := Option.some.inj first
    exact absurd opener (by decide)

/-- A text that opens nothing is JSON exactly when it is a literal. -/
theorem isJson_iff_isLiteral (closed : ¬ Opens text) : IsJson text ↔ IsLiteral text :=
  ⟨fun json => json.literal_or_opens.resolve_right closed, IsLiteral.isJson⟩

end Texts

section Runs

variable {fuel n o : Nat} {json : Allocation 8192} {parsed : Allocation 4096} {b : UInt8}

/-- The test for digits on a register is that on the byte. -/
theorem isDigit_charReg : (ige (charReg b) 48 && ile (charReg b) 57) =
    decide (48 ≤ b ∧ b ≤ 57) := by
  have all : ∀ v : BitVec 8, (ige (v.signExtend 64) 48 && ile (v.signExtend 64) 57) =
      decide (48#8 ≤ v ∧ v ≤ 57#8) := by decide +kernel
  exact all b.toBitVec

/-- The first byte behind the whitespace, the null where there is no other. -/
theorem exits_skipWsBody (spaces : ∀ i < o, IsSpace (json.bytes i))
    (char : ¬ IsSpace (json.bytes o))
    (inside : o < 8192) (enough : 8192 < fuel) :
      exits (skipWsBody json) fuel 0 = some (count o) := by
  refine exits_along_leave (n := o) (p := count) (fun i below => ?_) ?_ (by omega)
  · simp only [skipWsBody, load_char (show i < 8192 by omega) (by omega), Option.bind_eq_bind,
      Option.bind_some,
      isWhitespace_charReg, spaces i below, decide_true, if_true, count_succ]
    rfl
  · simp only [skipWsBody, load_char inside (by omega), Option.bind_eq_bind, Option.bind_some,
      isWhitespace_charReg, char, decide_false, Bool.false_eq_true, if_false]
    rfl

/-- The first character of the text is the byte behind the whitespace. -/
theorem opens_iff_isOpener (spaces : ∀ i < o, IsSpace (json.bytes i))
    (char : ¬ IsSpace (json.bytes o))
    (length : (json.bytes.text 8192).length = n) (le : o ≤ n) (null : json.bytes n = 0) :
    Opens (json.bytes.text 8192) ↔ IsOpener (json.bytes o) := by
  have before : ∀ c ∈ (json.bytes.text 8192).take o, IsSpace c := by
    intro c member
    obtain ⟨i, below, rfl⟩ := List.mem_iff_getElem.mp member
    rw [List.length_take] at below
    rw [List.getElem_take, Buffer.getElem_text]
    exact spaces i (by omega)
  by_cases whole : o = n
  · have none_ : firstChar (json.bytes.text 8192) = none := by
      rw [List.take_of_length_le (by omega)] at before
      exact List.find?_eq_none.mpr (by simpa using before)
    have closed : ¬ IsOpener (json.bytes o) := by
      rw [whole, null]
      decide
    simp [Opens, none_, closed]
  · have inside : o < (json.bytes.text 8192).length := by omega
    have first : firstChar (json.bytes.text 8192) = some (json.bytes o) := by
      refine List.find?_eq_some_iff_append.mpr
        ⟨by simpa using char, _, (json.bytes.text 8192).drop (o + 1), ?_,
        by simpa using before⟩
      rw [← Buffer.getElem_text inside, ← List.drop_eq_getElem_cons inside, List.take_append_drop]
    simp [Opens, first]

/-- An element that is read leaves the status zero. -/
theorem parseElement_status {tag : Register} :
    ∃ parsed', parseElement tag 4 0 (count o) parsed = some (parsed', 0) := by
  unfold parseElement
  simp only [Option.bind_eq_bind]
  rw [Allocation.store_inside (show (0 : Register).toNat + 1 ≤ 4096 by decide), Option.bind_some,
    Allocation.store_inside (show (1 : Register).toNat + 1 ≤ 4096 by decide), Option.bind_some,
    Allocation.store_inside (show (4 : Register).toNat + 1 ≤ 4096 by decide), Option.bind_some,
    Allocation.store_inside (show (4 + 1 : Register).toNat + 2 ≤ 4096 by decide), Option.bind_some,
    Allocation.store_inside (show (2 : Register).toNat + 2 ≤ 4096 by decide), Option.bind_some]
  exact ⟨_, rfl⟩

/-- The status tells whether the text opens something. -/
theorem jsonParse_status (short : (json.bytes.text 8192).length < 8192) (enough : 8192 < fuel) :
    ∃ parsed', jsonParse fuel json parsed =
      some (parsed', if Opens (json.bytes.text 8192) then 0 else -1) := by
  obtain ⟨n, length⟩ : ∃ n, (json.bytes.text 8192).length = n := ⟨_, rfl⟩
  have null : json.bytes n = 0 := length ▸ Buffer.text_end short
  have stop : ¬ IsSpace (json.bytes n) := by
    rw [null]
    decide
  have some_ : ∃ i, ¬ IsSpace (json.bytes i) := ⟨n, stop⟩
  obtain ⟨o, char, spaces⟩ : ∃ o, ¬ IsSpace (json.bytes o) ∧ ∀ i < o, IsSpace (json.bytes i) :=
    ⟨Nat.find some_, Nat.find_spec some_, fun i below => not_not.mp (Nat.find_min some_ below)⟩
  have le : o ≤ n := by
    by_contra more
    exact stop (spaces n (by omega))
  have inside : o < 8192 := by omega
  have equal : ∀ c : UInt8, charReg (json.bytes o) = charReg c ↔ json.bytes o = c :=
    fun c => charReg_inj
  have brace : charReg (json.bytes o) = 123 ↔ json.bytes o = 123 := equal 123
  have bracket : charReg (json.bytes o) = 91 ↔ json.bytes o = 91 := equal 91
  have quote : charReg (json.bytes o) = 34 ↔ json.bytes o = 34 := equal 34
  have minus : charReg (json.bytes o) = 45 ↔ json.bytes o = 45 := equal 45
  simp only [opens_iff_isOpener spaces char length le null, jsonParse,
    exits_skipWsBody spaces char inside enough, load_char inside (show o < 2 ^ 63 by omega),
    Option.bind_eq_bind, Option.bind_some, isDigit_charReg, brace, bracket, quote, minus]
  have element : ∀ tag, ∃ parsed', parseElement tag 4 0 (count o) parsed = some (parsed', 0) :=
    fun tag => parseElement_status
  by_cases opener : IsOpener (json.bytes o)
  · rw [if_pos opener]
    split_ifs with object array string number
    · exact element 1
    · exact element 2
    · exact element 3
    · exact element 4
    · simp_all [IsOpener]
  · rw [if_neg opener]
    obtain ⟨object, array, string, minus, digit⟩ :
      json.bytes o ≠ 123 ∧ json.bytes o ≠ 91 ∧ json.bytes o ≠ 34 ∧
        json.bytes o ≠ 45 ∧ ¬ (48 ≤ json.bytes o ∧ json.bytes o ≤ 57) := by
      simpa only [IsOpener, not_or] using opener
    rw [if_neg object, if_neg array, if_neg string, decide_eq_false minus, decide_eq_false digit]
    simp only [Bool.or_self, Bool.false_eq_true, if_false, parseError, Option.bind_eq_bind]
    rw [Allocation.store_inside (show (0 : Register).toNat + 1 ≤ 4096 by decide), Option.bind_some]
    exact ⟨_, rfl⟩

/-- `json/parse` tells JSON texts from others exactly where the text opens an object, an array,
a string or a
number and is JSON, or opens none of them and is no literal. -/
theorem jsonParse_accepts_iff (short : (json.bytes.text 8192).length < 8192)
    (enough : 8192 < fuel) :
    ∃ parsed' status, jsonParse fuel json parsed = some (parsed', status) ∧
      ((status = 0 ↔ IsJson (json.bytes.text 8192)) ∧
        (¬ IsJson (json.bytes.text 8192) → status = -1) ↔
        (Opens (json.bytes.text 8192) ∧ IsJson (json.bytes.text 8192)) ∨
          (¬ Opens (json.bytes.text 8192) ∧ ¬ IsLiteral (json.bytes.text 8192))) := by
  obtain ⟨parsed', result⟩ := @jsonParse_status fuel json parsed short enough
  refine ⟨_, _, result, ?_⟩
  by_cases opens : Opens (json.bytes.text 8192)
  · simp [opens]
  · simp [opens, isJson_iff_isLiteral opens]

/-- A buffer with the literal `true`. -/
def trueBuffer : Allocation 8192 := ⟨fun i => (encodeChars "true".toList).getD i 0⟩

/-- The text in the buffer `trueBuffer`. -/
theorem text_trueBuffer : trueBuffer.bytes.text 8192 = encodeChars "true".toList := by
  have length : (trueBuffer.bytes.text 8192).length = 4 :=
    Buffer.length_text (by decide) (by decide) fun _ => by decide
  rw [Buffer.text_eq_bytes, length]
  decide

/-- The text in the buffer `trueBuffer` is shorter than the buffer. -/
theorem short_trueBuffer : (trueBuffer.bytes.text 8192).length < 8192 := by
  rw [text_trueBuffer]
  decide

/-- The text `true`. -/
theorem jsonParse_accepts_iff_true : (trueBuffer.bytes.text 8192).length < 8192 ∧
    ∃ parsed' status, jsonParse 8193 trueBuffer ⟨fun _ => 0⟩ = some (parsed', status) ∧
      ((status = 0 ↔ IsJson (trueBuffer.bytes.text 8192)) ∧
          (¬ IsJson (trueBuffer.bytes.text 8192) → status = -1) ↔
        (Opens (trueBuffer.bytes.text 8192) ∧ IsJson (trueBuffer.bytes.text 8192)) ∨
          (¬ Opens (trueBuffer.bytes.text 8192) ∧ ¬ IsLiteral (trueBuffer.bytes.text 8192))) := by
  exact ⟨short_trueBuffer, jsonParse_accepts_iff short_trueBuffer (by decide)⟩

/-- `true` is a JSON text and is refused. -/
theorem jsonParse_refuses_true : ∃ json : Allocation 8192, (json.bytes.text 8192).length < 8192 ∧
    IsJson (json.bytes.text 8192) ∧ ∃ parsed', jsonParse 8193 json ⟨fun _ => 0⟩ =
      some (parsed', -1) := by
  have literal : IsLiteral (trueBuffer.bytes.text 8192) :=
    ⟨[], _, [], by simp [Json.Space], .true, by simp [Json.Space], by simp [text_trueBuffer]⟩
  obtain ⟨parsed', result⟩ := @jsonParse_status 8193 trueBuffer ⟨fun _ => 0⟩ short_trueBuffer
    (by decide)
  rw [if_neg literal.not_opens] at result
  exact ⟨trueBuffer, short_trueBuffer, literal.isJson, parsed', result⟩

end Runs

end Sigil.Stdlib
