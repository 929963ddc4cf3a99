import Sigil.Lexer.Text
import Sigil.Parser.Reads

/-!
# Hash pins

A pin is lexed as an integer, an identifier or one of each, and put together again by the
parser. A pin of decimal digits swallows the name behind it if that looks hexadecimal.
-/

namespace Sigil

open Flow Lexer

/-- A lowercase hexadecimal digit. -/
def isLowerHex (c : Char) : Bool := c.isDigit || ('a' ≤ c && c ≤ 'f')

/-- A hash as the contract hash is written. -/
def IsPin (hash : String) : Prop := hash.toList.length = 8 ∧ hash.toList.all isLowerHex

/-- The number that decimal digits show. -/
def digitsValue (digits : List Char) : Nat := Nat.ofDigitChars 10 digits 0

section Digits

variable {digits : List Char}

/-- A digit is printed as itself. -/
theorem toDigits_digit {c : Char} (digit : c.isDigit) : Nat.toDigits 10 (digitsValue [c]) = [c] :=
  forall_isIdentChar (P := fun c => c.isDigit → Nat.toDigits 10 (digitsValue [c]) = [c]) (by decide)
    (isIdentChar_of_isDigit digit) digit

/-- A digit stands for less than ten. -/
theorem digitsValue_lt_ten {c : Char} (digit : c.isDigit) : digitsValue [c] < 10 :=
  forall_isIdentChar (P := fun c => c.isDigit → digitsValue [c] < 10) (by decide)
    (isIdentChar_of_isDigit digit) digit

/-- The value of digits with one more behind them. -/
theorem digitsValue_append (c : Char) :
    digitsValue (digits ++ [c]) = 10 * digitsValue digits + digitsValue [c] := by
  simp only [digitsValue, Nat.ofDigitChars_append]
  simp [Nat.ofDigitChars_cons]

/-- The leading zeros are all that the value of some digits loses. -/
theorem zeros_toDigits (some_ : digits ≠ []) (all : digits.all Char.isDigit) :
    List.replicate (digits.length - (Nat.toDigits 10 (digitsValue digits)).length) '0' ++
      Nat.toDigits 10 (digitsValue digits) = digits := by
  induction digits using List.reverseRecOn with
  | nil => exact absurd rfl some_
  | append_singleton init c ih =>
      obtain ⟨all, digit⟩ : init.all Char.isDigit ∧ c.isDigit := by simpa using all
      rw [digitsValue_append, List.length_append]
      rcases eq_or_ne init [] with rfl | filled
      · change List.replicate (_ - (Nat.toDigits 10 (10 * 0 + digitsValue [c])).length) '0' ++
          Nat.toDigits 10 (10 * 0 + digitsValue [c]) = [c]
        rw [Nat.mul_zero, Nat.zero_add, toDigits_digit digit]
        rfl
      · have before := ih filled all
        rcases Nat.eq_zero_or_pos (digitsValue init) with zero | positive
        · rw [zero, Nat.toDigits_zero] at before
          rw [zero, Nat.mul_zero, Nat.zero_add, toDigits_digit digit]
          have zeros : init = List.replicate init.length '0' := by
            rw [← before]
            simp [List.replicate_succ']
          rw [List.length_singleton, Nat.add_sub_cancel, ← zeros]
        · rw [← Nat.toDigits_append_toDigits (by decide) positive (digitsValue_lt_ten digit),
            toDigits_digit digit, List.length_append, List.length_singleton, Nat.add_sub_add_right,
            ← List.append_assoc, before]

/-- Digits stand for less than the power of ten of their number. -/
theorem digitsValue_lt (all : digits.all Char.isDigit) :
    digitsValue digits < 10 ^ digits.length := by
  induction digits using List.reverseRecOn with
  | nil => decide
  | append_singleton init c ih =>
      obtain ⟨all, digit⟩ : init.all Char.isDigit ∧ c.isDigit := by simpa using all
      have low := digitsValue_lt_ten digit
      have before := ih all
      rw [digitsValue_append, List.length_append, List.length_singleton, pow_succ]
      omega

/-- Up to 18 digits are a word. -/
theorem parseDecimal_digits (all : digits.all Char.isDigit) (short : digits.length ≤ 18) :
    parseDecimal digits = some (BitVec.ofNat 64 (digitsValue digits)) := by
  have small : digitsValue digits < 2 ^ 63 :=
    (digitsValue_lt all).trans ((Nat.pow_le_pow_right (by decide) short).trans_lt (by decide))
  unfold parseDecimal
  split
  next minus => exact absurd (Bool.and_eq_true_iff.mp all).1 (by decide)
  next => exact if_pos small

/-- Digits as the text of their value. -/
theorem toString_digits (all : digits.all Char.isDigit) (short : digits.length ≤ 18) :
    (toString (BitVec.ofNat 64 (digitsValue digits)).toInt).toList =
      Nat.toDigits 10 (digitsValue digits) := by
  have small : digitsValue digits < 2 ^ 63 :=
    (digitsValue_lt all).trans ((Nat.pow_le_pow_right (by decide) short).trans_lt (by decide))
  have read : (BitVec.ofNat 64 (digitsValue digits)).toInt = (digitsValue digits : Int) := by
    rw [BitVec.toInt_eq_toNat_cond, BitVec.toNat_ofNat, Nat.mod_eq_of_lt (by omega)]
    split <;> omega
  rw [read]
  exact Nat.toList_repr

end Digits

/-- The tokens of a pin. -/
def pinKinds (hash : List Char) : List TokenKind :=
  let digits := hash.takeWhile Char.isDigit
  let letters := hash.dropWhile Char.isDigit
  (if digits = [] then [] else [.integer (BitVec.ofNat 64 (digitsValue digits))]) ++
    if letters = [] then [] else [.identifier (String.ofList letters)]

/-- What a hash is put together from. -/
def isValue : TokenKind → Bool
  | .integer _ | .identifier _ => true
  | _ => false

/-- Every token of a pin is a value token. -/
theorem value_of_pinKinds {hash : List Char} : ∀ kind ∈ pinKinds hash, isValue kind = true := by
  intro kind member
  unfold pinKinds at member
  rcases List.mem_append.mp member with digits | letters
  · split at digits
    · cases digits
    · rw [List.mem_singleton.mp digits]
      rfl
  · split at letters
    · cases letters
    · rw [List.mem_singleton.mp letters]
      rfl

/-- No pin and no name goes on with what follows. -/
def EndsPin (rest : List Char) : Prop := EndsWord rest ∧ EndsNumber rest

/-- A word of lower case hexadecimal digits is no keyword. -/
theorem keywordOrIdent_hex {text : List Char} (hex : text.all isLowerHex) :
    keywordOrIdent (String.ofList text) = .identifier (String.ofList text) := by
  have other : ∀ entry ∈ keywords, entry.1.toList.all isLowerHex = false := by decide
  have unreserved : keywords.lookup (String.ofList text) = none := by
    rw [List.lookup_eq_none_iff]
    intro entry member
    rw [bne_iff_ne]
    intro same
    have fails := other entry member
    rw [← same, String.toList_ofList, hex] at fails
    cases fails
  unfold keywordOrIdent
  rw [unreserved]

/-- Lower case hexadecimal digits are identifier characters. -/
theorem isIdentChar_of_isLowerHex {c : Char} (hex : isLowerHex c) : isIdentChar c := by
  unfold isLowerHex at hex
  cases digit : c.isDigit with
  | true => exact isIdentChar_of_isDigit digit
  | false =>
      rw [digit, Bool.false_or, Bool.and_eq_true, decide_eq_true_eq, decide_eq_true_eq] at hex
      have low : c.isLower := by
        rw [Char.isLower, Bool.and_eq_true, decide_eq_true_eq, decide_eq_true_eq]
        exact ⟨hex.1, le_trans hex.2 (by decide : 'f' ≤ 'z')⟩
      simp [isIdentChar, Char.isAlphanum, Char.isAlpha, low]

/-- A hexadecimal digit that is no decimal one begins an identifier. -/
theorem isIdentStart_of_isLowerHex {c : Char} (hex : isLowerHex c) (letter : c.isDigit = false) :
    isIdentStart c ∧ c ≠ '.' ∧ c ≠ 'x' := by
  have inside := isIdentChar_of_isLowerHex hex
  have begins := forall_isIdentChar (P := fun c => isLowerHex c → isIdentStart c || c.isDigit)
    (by decide)
    inside hex
  have other := forall_isIdentChar (P := fun c => isLowerHex c → c ≠ '.' ∧ c ≠ 'x') (by decide)
    inside hex
  rw [letter, Bool.or_false] at begins
  exact ⟨begins, other⟩

/-- The letters of a pin, and the digits behind them. -/
theorem scans_letters {start : Bool} {c : Char} {letters : List Char}
    (hex : (c :: letters).all isLowerHex)
    (letter : c.isDigit = false) :
    Scans start (c :: letters) [.identifier (String.ofList (c :: letters))] EndsPin := by
  obtain ⟨first, later⟩ := Bool.and_eq_true_iff.mp hex
  have word : Scans start (c :: letters) [keywordOrIdent (String.ofList (c :: letters))]
    EndsWord := by
    refine .word (isIdentStart_of_isLowerHex first letter).1 ?_
      (by rw [keywordOrIdent_hex hex]; simp)
    rw [List.all_eq_true] at later ⊢
    exact fun d member => isIdentChar_of_isLowerHex (later d member)
  rw [keywordOrIdent_hex hex] at word
  exact word.mono fun _ ends => ends.1

/-- A pin in two parts: the digits, and what a letter begins. -/
theorem pin_parts {hash : String} (pin : IsPin hash) : ∃ front back, hash.toList = front ++ back ∧
    front.all Char.isDigit ∧ back.all isLowerHex ∧ (∀ c ∈ back.head?, c.isDigit = false) ∧
    front.length + back.length = 8 ∧ pinKinds hash.toList =
      (if front = [] then [] else [.integer (BitVec.ofNat 64 (digitsValue front))]) ++
        if back = [] then [] else [.identifier (String.ofList back)] := by
  obtain ⟨length, hex⟩ := pin
  refine ⟨hash.toList.takeWhile Char.isDigit, hash.toList.dropWhile Char.isDigit,
    List.takeWhile_append_dropWhile.symm, List.all_takeWhile, ?_, ?_, ?_, rfl⟩
  · rw [List.all_eq_true] at hex ⊢
    exact fun c member => hex c (List.dropWhile_subset _ member)
  · intro c member
    have letter := List.head?_dropWhile_not Char.isDigit hash.toList
    rwa [Option.mem_def.mp member] at letter
  · rw [← List.length_append, List.takeWhile_append_dropWhile, length]

/-- A pin scans as its tokens. -/
theorem scans_pin {start : Bool} {hash : String} (pin : IsPin hash) :
    Scans start hash.toList (pinKinds hash.toList) EndsPin := by
  obtain ⟨front, back, text, all, later, letter, short, kinds⟩ := pin_parts pin
  rw [kinds, text]
  have value := parseDecimal_digits all (by omega)
  rcases front with _ | ⟨d, front⟩
  · rcases back with _ | ⟨c, back⟩
    · cases short
    · exact scans_letters later (letter c rfl)
  · obtain ⟨digit, inside⟩ := Bool.and_eq_true_iff.mp all
    have number : Scans start (d :: front)
      [.integer (BitVec.ofNat 64 (digitsValue (d :: front)))] EndsNumber :=
      .number digit inside value
    rcases back with _ | ⟨c, back⟩
    · simpa using number.mono fun _ (ends : EndsPin _) => ends.2
    · refine number.append (scans_letters later (letter c rfl)) fun rest _ c' member => ?_
      obtain rfl : c = c' := Option.some.inj member
      exact ⟨letter c rfl, (isIdentStart_of_isLowerHex (Bool.and_eq_true_iff.mp later).1
        (letter c rfl)).2⟩

/-- A name that looks hexadecimal. -/
def HexName (kind : TokenKind) : Prop :=
    ∃ name, kind = .identifier name ∧ name.toList.all Char.isHexDigit

/-- What a pin of decimal digits does not swallow. -/
def Spares (hash : String) (kind : TokenKind) : Prop :=
    hash.toList.all Char.isDigit → ¬ HexName kind

namespace Parser

section Padding

variable {front back : List Char}

/-- Lower case hexadecimal digits are hexadecimal digits. -/
theorem isHexDigit_of_isLowerHex {c : Char} (hex : isLowerHex c) : c.isHexDigit :=
  forall_isIdentChar (P := fun c => isLowerHex c → c.isHexDigit) (by decide)
    (isIdentChar_of_isLowerHex hex) hex

/-- Lowering changes nothing in lower case hexadecimal digits. -/
theorem map_toLower_of_isLowerHex (hex : front.all isLowerHex) :
    front.map Char.toLower = front := by
  rw [List.all_eq_true] at hex
  refine (List.map_congr_left fun c member => ?_).trans (List.map_id _)
  exact forall_isIdentChar (P := fun c => isLowerHex c → c.toLower = c) (by decide)
    (isIdentChar_of_isLowerHex (hex c member)) (hex c member)

/-- Padding restores the leading zeros of a pin. -/
theorem padHash_digits (filled : front ≠ []) (all : front.all Char.isDigit)
    (hex : back.all isLowerHex)
    (length : front.length + back.length = 8) :
    padHash (Nat.toDigits 10 (digitsValue front) ++ back) = front ++ back := by
  have zeros := zeros_toDigits filled all
  have shown := congrArg List.length zeros
  rw [List.length_append, List.length_replicate] at shown
  have hexDigits : (Nat.toDigits 10 (digitsValue front) ++ back).all Char.isHexDigit := by
    rw [List.all_eq_true] at hex ⊢
    intro c member
    rcases List.mem_append.mp member with digit | letter
    · have shown := Nat.isDigit_of_mem_toDigits (by decide) (by decide) digit
      exact isHexDigit_of_isLowerHex (by simp [isLowerHex, shown])
    · exact isHexDigit_of_isLowerHex (hex c letter)
  unfold padHash
  split
  next short =>
    rw [← List.append_assoc, List.length_append]
    have missing : 8 - ((Nat.toDigits 10 (digitsValue front)).length + back.length) =
        front.length - (Nat.toDigits 10 (digitsValue front)).length := by omega
    rw [missing, zeros]
  next long =>
    have none_ : front.length - (Nat.toDigits 10 (digitsValue front)).length = 0 := by
      by_contra some_
      refine long ⟨by simp [Nat.toDigits_ne_nil], ?_, hexDigits⟩
      rw [List.length_append]
      omega
    rw [none_, List.replicate_zero, List.nil_append] at zeros
    rw [zeros]

end Padding

section Reading

variable {hash name : String} {G : TokenKind → Prop}

/-- A pin is read back, unless a name behind it is swallowed. -/
theorem yields_expectHexString (pin : IsPin hash) :
    Yields expectHexString (pinKinds hash.toList) (Spares hash) hash := by
  obtain ⟨front, back, text, all, later, letter, short, kinds⟩ := pin_parts pin
  have lower : (front ++ back).all isLowerHex := text ▸ pin.2
  have whole {ks : List TokenKind} {result : List Char} (padded : padHash result = front ++ back)
      (read : Yields hashText ks (Spares hash) result) :
        Yields expectHexString ks (Spares hash) hash := by
    have last := read.last (g := fun result => String.ofList ((padHash result).map Char.toLower))
    rwa [padded, map_toLower_of_isLowerHex lower, ← text, String.ofList_toList] at last
  have number : (toString (BitVec.ofNat 64 (digitsValue front)).toInt).toList =
    Nat.toDigits 10 (digitsValue front) :=
    toString_digits all (by omega)
  rw [kinds]
  rcases eq_or_ne front [] with rfl | filled
  · have back8 : back ≠ [] := by
      rintro rfl
      cases short
    rw [if_pos rfl, if_neg back8, List.nil_append]
    have padded : padHash back = [] ++ back := if_neg fun small => by
      have less := small.2.1
      simp at short
      omega
    refine whole padded (.peek (.advance_bind (by simp) ?_))
    rw [String.toList_ofList]
    exact .pure
  · rw [if_neg filled]
    refine whole (padHash_digits filled all later short) ?_
    rcases eq_or_ne back [] with rfl | ended
    · rw [if_pos rfl, List.append_nil, List.append_nil]
      refine .peek (.advance_bind (by simp) (.peek_nil (q := pure _) (fun k spared => ?_) .pure))
      have digits : hash.toList.all Char.isDigit := by rwa [text, List.append_nil]
      have passed := spared digits
      split
      next s =>
        rw [if_neg fun hex => passed ⟨s, rfl, hex⟩, number]
      next => rw [number]
    · rw [if_neg ended, List.singleton_append]
      refine .peek (.advance_bind (by simp) (.peek ?_))
      have hex : (String.ofList back).toList.all Char.isHexDigit := by
        rw [String.toList_ofList]
        rw [List.all_eq_true] at later ⊢
        exact fun c member => isHexDigit_of_isLowerHex (later c member)
      rw [number]
      dsimp only
      rw [if_pos hex, String.toList_ofList]
      exact .advance_bind (by simp) .pure

/-- A pin of decimal digits takes the name behind it for its letters. -/
theorem yields_swallowing (pin : IsPin hash) (digits : hash.toList.all Char.isDigit)
    (hex : name.toList.all Char.isHexDigit) :
    ∃ read, Yields expectHexString (pinKinds hash.toList ++ [.identifier name]) G read := by
  have front : hash.toList.takeWhile Char.isDigit = hash.toList := by
    rw [List.takeWhile_eq_self_iff]
    exact List.all_eq_true.mp digits
  have back : hash.toList.dropWhile Char.isDigit = [] := by
    rw [List.dropWhile_eq_nil_iff]
    exact List.all_eq_true.mp digits
  have filled : hash.toList ≠ [] := by
    intro empty
    have length := pin.1
    rw [empty] at length
    cases length
  rw [pinKinds]
  simp only [front, back, filled, if_false, if_true, List.append_nil, List.singleton_append]
  have read : Yields hashText [.integer (BitVec.ofNat 64 (digitsValue hash.toList)),
    .identifier name] G
      ((toString (BitVec.ofNat 64 (digitsValue hash.toList)).toInt).toList ++ name.toList) := by
    refine .peek (.advance_bind (by simp) (.peek ?_))
    dsimp only
    rw [if_pos hex]
    exact .advance_bind (by simp) .pure
  exact ⟨_, read.last⟩

/-- The tokens of `name@hash`. -/
def refKinds (ref : BehaviorRef) : List TokenKind :=
  .identifier ref.name :: .atSign :: pinKinds ref.hash.toList

/-- The pin of a reference swallows the name of the next one. -/
def Swallows (ref next : BehaviorRef) : Prop :=
  ref.hash.toList.all Char.isDigit ∧ next.name.toList.all Char.isHexDigit

instance : DecidableRel Swallows := fun ref next => by unfold Swallows; infer_instance

/-- References are no more than their tokens. -/
theorem length_le_refKinds (refs : List BehaviorRef) :
    refs.length ≤ (refs.flatMap refKinds).length := by
  induction refs with
  | nil => exact le_rfl
  | cons ref refs ih =>
      rw [List.flatMap_cons, List.length_append, refKinds, List.length_cons, List.length_cons]
      omega

/-- No reference swallows the name of the next one. -/
def Apart (refs : List BehaviorRef) : Prop := refs.IsChain fun ref next => ¬ Swallows ref next

/-- No name. -/
def NotName (kind : TokenKind) : Prop := ∀ name, kind ≠ .identifier name

variable {refs : List BehaviorRef} {n : Nat}

/-- No reference is read where no name stands. -/
theorem yields_noRefs : Yields (parseBehaviorRefs n) [] NotName [] := by
  cases n with
  | zero => exact .pure
  | succ n =>
      refine .peek_nil (q := pure []) (fun k other => ?_) .pure
      split
      next name => exact absurd rfl (other name)
      next => rfl

/-- References with their pins are read in order. -/
theorem yields_refs (pins : ∀ ref ∈ refs, IsPin ref.hash) (apart : Apart refs)
    (enough : refs.length < n) :
    Yields (parseBehaviorRefs n) (refs.flatMap refKinds) NotName refs := by
  induction refs generalizing n with
  | nil => exact yields_noRefs
  | cons ref refs ih =>
      obtain ⟨n, rfl⟩ := Nat.exists_eq_add_of_lt enough
      have later := ih (fun ref member => pins ref (List.mem_cons_of_mem _ member)) apart.tail
        (n := refs.length + 1 + n) (by omega)
      have pinned : Yields parsePin (.atSign :: pinKinds ref.hash.toList) (Spares ref.hash)
        ref.hash :=
        .peek (.advance_bind (by simp) (yields_expectHexString (pins ref List.mem_cons_self)))
      refine .peek (.advance_bind (by simp) (pinned.bind later.last fun k other => ?_))
      intro digits ⟨name, same, hex⟩
      cases refs with
      | nil => exact other name same
      | cons next refs =>
          obtain rfl := TokenKind.identifier.inj same
          exact (List.isChain_cons_cons.mp apart).1 ⟨digits, hex⟩

/-- References stop being read behind a pin that swallows a name. -/
theorem yields_swallowed (pins : ∀ ref ∈ refs, IsPin ref.hash) (swallowed : ¬ Apart refs) :
    ∃ used left read, refs.flatMap refKinds = used ++ .atSign :: left ∧ read.length < refs.length ∧
      ∀ n, used.length < n → Yields (parseBehaviorRefs n) used (· = .atSign) read := by
  induction refs with
  | nil => exact absurd List.isChain_nil swallowed
  | cons ref refs ih =>
      cases refs with
      | nil => exact absurd (List.isChain_singleton _) swallowed
      | cons next refs =>
          have pin := pins ref List.mem_cons_self
          by_cases here : Swallows ref next
          · obtain ⟨read, swallows⟩ := yields_swallowing (G := fun _ => True) pin here.1 here.2
            refine ⟨.identifier ref.name :: .atSign ::
              (pinKinds ref.hash.toList ++ [.identifier next.name]),
              pinKinds next.hash.toList ++ refs.flatMap refKinds, [⟨ref.name, read⟩], ?_, ?_,
                fun n enough => ?_⟩
            · simp [refKinds]
            · simp
            · obtain ⟨n, rfl⟩ := Nat.exists_eq_add_of_lt enough
              have pinned :
                Yields parsePin (.atSign :: (pinKinds ref.hash.toList ++ [.identifier next.name]))
                  (fun _ => True) read := .peek (.advance_bind (by simp) swallows)
              have ended (m : Nat) : Yields (parseBehaviorRefs m) [] (· = .atSign) [] :=
                yields_noRefs.mono fun k same name other => by rw [same] at other; cases other
              have both (m : Nat) := pinned.bind (f := fun hash => do
                  let rest ← parseBehaviorRefs m
                  return ⟨ref.name, hash⟩ :: rest) (ended m).last fun _ _ => trivial
              simp only [List.append_nil] at both
              exact .peek (.advance_bind (by simp) (both _))
          · have later : ¬ Apart (next :: refs) := fun apart =>
              swallowed (List.isChain_cons_cons.mpr ⟨here, apart⟩)
            obtain ⟨used, left, read, parts, fewer, reads⟩ :=
              ih (fun ref member => pins ref (List.mem_cons_of_mem _ member)) later
            refine ⟨refKinds ref ++ used, left, ref :: read, ?_, Nat.succ_lt_succ fewer,
              fun n enough => ?_⟩
            · rw [List.flatMap_cons, parts, List.append_assoc]
            · obtain ⟨n, rfl⟩ := Nat.exists_eq_add_of_lt enough
              have first : headKind used .atSign = .identifier next.name := by
                cases used with
                | nil => cases parts
                | cons k used => exact (List.cons.inj parts).1.symm
              have pinned : Yields parsePin (.atSign :: pinKinds ref.hash.toList)
                (Spares ref.hash) ref.hash :=
                .peek (.advance_bind (by simp) (yields_expectHexString pin))
              refine .peek (.advance_bind (by simp)
                (pinned.bind (reads _ ?_).last fun k same => ?_))
              · rw [List.length_append, refKinds, List.length_cons]
                omega
              · subst same
                rw [first]
                rintro digits ⟨name, same, hex⟩
                obtain rfl := TokenKind.identifier.inj same
                exact here ⟨digits, hex⟩

end Reading

section Clause

variable {α : Type} {blanks ks : List TokenKind} {f : Unit → Parser α} {a : α}
  {G : TokenKind → Prop}
  {refs acc : List BehaviorRef} {n : Nat}

/-- Blanks are skipped in front of something else. -/
theorem Yields.skip_bind (blank : ∀ k ∈ blanks, isBlank k) (reads : Yields (f ()) ks G a)
    (solid : ∀ k, G k → isBlank (headKind ks k) = false) :
      Yields (skipNewlines >>= f) (blanks ++ ks) G a := by
  intro tokens rest spelled follows
  obtain ⟨t₁, t₂, rfl, spelled₁, spelled₂⟩ := spelled_append spelled
  have next : isBlank (Parser.peek (t₂ ++ rest)).kind = false := by
    rw [peek_append spelled₂]
    exact solid _ follows
  refine returns_bind.mpr ⟨(), t₂ ++ rest, returns_modify.mpr ?_, reads t₂ rest spelled₂ follows⟩
  rw [List.append_assoc, List.dropWhile_append_of_pos]
  · symm
    cases found : t₂ ++ rest with
    | nil => rfl
    | cons token later =>
        rw [found] at next
        exact List.dropWhile_cons_of_neg (by simpa [Parser.peek] using next)
  · intro token member
    exact blank _ (spelled₁ ▸ List.mem_map_of_mem member)

/-- No token is no blank. -/
theorem no_blanks : ∀ k ∈ ([] : List TokenKind), isBlank k := fun _ member => by cases member

/-- Where nothing is skipped. -/
theorem Yields.solid_bind (reads : Yields (f ()) ks G a)
    (solid : ∀ k, G k → isBlank (headKind ks k) = false) :
    Yields (skipNewlines >>= f) ks G a := .skip_bind no_blanks reads solid

/-- What begins with a name and is read as references replaces those read before. -/
theorem yields_requiresLine (acc : List BehaviorRef) {used : List TokenKind} {F : TokenKind → Prop}
    {last : List BehaviorRef} (blank : ∀ k ∈ blanks, isBlank k)
      (named : ∃ name later, used = .identifier name :: later)
    (line : ∀ m, used.length < m → Yields (parseBehaviorRefs m) used F refs)
    (reads : Yields (parseRequires n refs) ks G last) (ends : ∀ k, G k → F (headKind ks k)) :
    Yields (parseRequires (n + 1) acc) (blanks ++ (used ++ ks)) G last := by
  obtain ⟨name, later, rfl⟩ := named
  have both : Yields (do
      let behaviors ← parseBehaviorRefs ((← get).length + 1)
      parseRequires n behaviors) (.identifier name :: later ++ ks) G last :=
        .within_bind line reads ends
  exact .skip_bind blank (.peek both) fun _ _ => rfl

/-- Where no name stands the references read last are kept. -/
theorem yields_requiresEnd (blank : ∀ k ∈ blanks, isBlank k) :
    Yields (parseRequires (n + 1) acc) blanks (fun k => NotName k ∧ isBlank k = false) acc := by
  rw [← List.append_nil blanks]
  refine .skip_bind blank (.peek_nil (q := pure acc) (fun k other => ?_) .pure) fun k other =>
    other.2
  split
  next name => exact absurd rfl (other.1 name)
  next => rfl

/-- A clause ends before what begins no other one. -/
def EndsClauses (kind : TokenKind) : Prop :=
  isBlank kind = false ∧ NotName kind ∧ ∀ word, kind = .keyword word →
    word ≠ .input ∧ word ≠ .output ∧
    word ≠ .requires ∧ word ≠ .guarantees ∧ word ≠ .memory

/-- Clauses end where no clause begins. -/
theorem yields_clausesEnd {contract : Contract} :
    Yields (parseClauses n contract) [] EndsClauses contract := by
  cases n with
  | zero => exact .pure
  | succ n =>
      refine .solid_bind (.peek_nil (q := pure contract) (fun k other => ?_) .pure) fun k
        other => other.1
      have words := other.2.2
      split <;> first | rfl | simp at words

/-- The REQUIRES clause of a contract. -/
theorem yields_requiresClause {contract after : Contract} {read : List TokenKind}
    {last : List BehaviorRef}
    {F : TokenKind → Prop} (blank : ∀ k ∈ blanks, isBlank k)
    (reads : ∀ m, read.length < m → Yields (parseRequires m []) read F last)
    (later : Yields (parseClauses n { contract with requires := { behaviors := last } }) ks G after)
    (solid : ∀ k, G k → isBlank (headKind (read ++ ks) k) = false)
      (meets : ∀ k, G k → F (headKind ks k)) :
    Yields (parseClauses (n + 1) contract) (.keyword .requires :: (blanks ++ (read ++ ks))) G
      after := by
  refine .solid_bind (.peek (.advance_bind (by simp) ?_)) fun _ _ => rfl
  exact .skip_bind blank (.within_bind reads later meets) solid

end Clause

/-- The HASH clause of a behavior. -/
def parseHash : Parser String := do
  match ← peekKind with
  | .keyword .hash => advance; expectHexString
  | got => fail (.unexpectedStatement got)

/-- A contract whose only clause is a list of references on one line. -/
theorem yields_requiresOnly {used : List TokenKind} {refs : List BehaviorRef} {F : TokenKind → Prop}
    (named : used ≠ [] → ∃ name later, used = .identifier name :: later)
    (line : ∀ m, used.length < m → Yields (parseBehaviorRefs m) used F refs)
    (ends : ∀ k, F k → EndsClauses k ∧ NotName k) (nothing : used = [] → refs = []) :
    Yields parseContract (.keyword .requires :: used) F
      { inputs := [], outputs := [], guarantees := [], requires := { behaviors := refs } } := by
  refine Yields.within (g := fun n => parseClauses n _) fun n enough => ?_
  obtain ⟨n, rfl⟩ := Nat.exists_eq_add_of_lt enough
  have reads : ∀ m, used.length < m → Yields (parseRequires m []) used F refs := by
    intro m enough
    obtain ⟨m, rfl⟩ := Nat.exists_eq_add_of_lt enough
    have last {acc : List BehaviorRef} {m : Nat} : Yields (parseRequires (m + 1) acc) [] F acc :=
      (yields_requiresEnd (by simp)).mono fun k allowed =>
        ⟨(ends k allowed).2, (ends k allowed).1.1⟩
    rcases eq_or_ne used [] with rfl | filled
    · rw [nothing rfl]
      exact last
    · obtain ⟨name, later, rfl⟩ := named filled
      have both : Yields (parseRequires (later.length + 1 + m + 1) [])
        ([] ++ (.identifier name :: later ++ [])) F refs :=
        yields_requiresLine [] no_blanks ⟨name, later, rfl⟩ line
          (by rw [Nat.add_right_comm]; exact last)
          fun _ allowed => allowed
      rw [List.append_nil] at both
      exact both
  have solid (k : TokenKind) (allowed : F k) : isBlank (headKind (used ++ []) k) = false := by
    rcases eq_or_ne used [] with rfl | filled
    · exact (ends k allowed).1.1
    · obtain ⟨name, later, rfl⟩ := named filled
      rfl
  have both :
    Yields (parseClauses (used.length + 1 + n + 1) { inputs := [], outputs := [], guarantees :=
      [] })
      (.keyword .requires :: ([] ++ (used ++ []))) F
      { inputs := [], outputs := [], guarantees := [], requires := { behaviors := refs } } :=
    yields_requiresClause no_blanks reads
      (yields_clausesEnd.mono fun k allowed => (ends k allowed).1) solid
      fun _ allowed => allowed
  rw [List.append_nil] at both
  exact both

end Parser

/-- The references in front of the end of a text. -/
def requiresOf (text : String) : Option (List BehaviorRef) :=
  match lex text with
  | .error _ => none
  | .ok tokens => match Parser.parseContract tokens with
    | .ok (contract, _) => some contract.requires.behaviors
    | .error _ => none

/-- The hash in front of the end of a text. -/
def hashOf (text : String) : Option String :=
  match lex text with
  | .error _ => none
  | .ok tokens => match Parser.parseHash tokens with
    | .ok (hash, _) => some hash
    | .error _ => none

/-- ` name@hash`. -/
def refText (ref : BehaviorRef) : List Char := ' ' :: (ref.name.toList ++ ('@' :: ref.hash.toList))

/-- `REQUIRES name@hash name@hash ...`. -/
def requiresText (refs : List BehaviorRef) : String :=
  String.ofList ("REQUIRES".toList ++ refs.flatMap refText)

/-- `HASH hash`. -/
def hashLine (hash : String) : String := "HASH " ++ hash

section Text

open Sigil.Parser

variable {refs : List BehaviorRef} {name : String} {ref : BehaviorRef}

/-- A reference with its pin scans as its tokens. -/
theorem scans_ref (ident : IsIdentifier ref.name) (pin : IsPin ref.hash) :
    Scans false (refText ref) (refKinds ref) EndsPin := by
  have sign : Scans false ['@'] [.atSign] (fun _ => True) := .mark rfl
  have pinned := sign.append (scans_pin pin) fun _ _ => trivial
  refine ((scans_identifier ident).append pinned fun rest _ c member => ?_).space
  obtain rfl := Option.some.inj member
  rfl

/-- References with their pins scan as their tokens. -/
theorem scans_refs (names : ∀ ref ∈ refs, IsIdentifier ref.name)
    (pins : ∀ ref ∈ refs, IsPin ref.hash) :
    Scans false (refs.flatMap refText) (refs.flatMap refKinds) EndsPin := by
  induction refs with
  | nil => exact .nil
  | cons ref refs ih =>
      obtain ⟨name, names⟩ := List.forall_mem_cons.mp names
      obtain ⟨pin, pins⟩ := List.forall_mem_cons.mp pins
      refine (scans_ref name pin).append (ih names pins) fun rest ends => ?_
      cases refs with
      | nil => exact ends
      | cons next refs =>
          constructor <;> intro c member <;> obtain rfl := Option.some.inj member <;> decide

/-- The end of the text ends a pin. -/
theorem endsPin_nil : EndsPin [] :=
    ⟨fun _ member => (by cases member), fun _ member => (by cases member)⟩

/-- The text of a REQUIRES clause lexes to its tokens. -/
theorem lex_requiresText (names : ∀ ref ∈ refs, IsIdentifier ref.name)
    (pins : ∀ ref ∈ refs, IsPin ref.hash) :
    ∃ tokens, lex (requiresText refs) = .ok tokens ∧
      tokens.map Token.kind = (.keyword .requires :: refs.flatMap refKinds) ++ [.eof] := by
  have word : Scans true Keyword.requires.text.toList [.keyword .requires] EndsWord :=
    scans_keyword (by decide)
  rw [show Keyword.requires.text = "REQUIRES" by decide] at word
  have whole := word.append (scans_refs names pins) fun rest ends => ?_
  · rw [← String.toList_ofList (l := _ ++ _)] at whole
    refine whole.lex endsPin_nil fun c member => ?_
    rw [String.toList_ofList] at member
    obtain rfl := Option.some.inj member
    decide
  · cases refs with
    | nil => exact ends.1
    | cons ref refs =>
        intro c member
        obtain rfl := Option.some.inj member
        rfl

/-- A pin has a token. -/
theorem pinKinds_ne_nil {hash : String} (pin : IsPin hash) : pinKinds hash.toList ≠ [] := by
  obtain ⟨front, back, _, _, _, _, length, kinds⟩ := pin_parts pin
  rw [kinds]
  rcases eq_or_ne front [] with rfl | filled
  · rcases eq_or_ne back [] with rfl | ended
    · cases length
    · simp [ended]
  · simp [filled]

/-- The characters of a HASH line. -/
theorem hashLine_toList (hash : String) :
    (hashLine hash).toList = "HASH".toList ++ (' ' :: hash.toList) := by
  have word : "HASH ".toList = "HASH".toList ++ [' '] := by decide
  rw [hashLine, String.toList_append, word, List.append_assoc, List.singleton_append]

/-- A HASH line lexes to its tokens. -/
theorem lex_hashLine {hash : String} (pin : IsPin hash) :
    ∃ tokens, lex (hashLine hash) = .ok tokens ∧
    tokens.map Token.kind = (.keyword .hash :: pinKinds hash.toList) ++ [.eof] := by
  have word : Scans true Keyword.hash.text.toList [.keyword .hash] EndsWord :=
    scans_keyword (by decide)
  rw [show Keyword.hash.text = "HASH" by decide] at word
  have pinned : Scans false hash.toList (pinKinds hash.toList) EndsPin := scans_pin pin
  obtain ⟨k, ks, kinds⟩ := List.exists_cons_of_ne_nil (pinKinds_ne_nil pin)
  rw [kinds] at pinned ⊢
  have whole := word.append pinned.space fun rest _ c member => ?_
  · rw [← hashLine_toList] at whole
    refine whole.lex endsPin_nil fun c member => ?_
    rw [hashLine_toList] at member
    obtain rfl := Option.some.inj member
    decide
  · obtain rfl := Option.some.inj member
    rfl

/-- A token list that ends where some kinds end and the rest begins. -/
theorem spelled_parts {tokens : List Token} {ks ks' : List TokenKind} {k : TokenKind}
    (spelled : tokens.map Token.kind = ks ++ k :: ks') :
    ∃ front rest, tokens = front ++ rest ∧ front.map Token.kind = ks ∧ (peek rest).kind = k := by
  obtain ⟨front, rest, rfl, before, after⟩ := spelled_append spelled
  obtain ⟨token, later, rfl, rfl, -⟩ := spelled_cons after
  exact ⟨front, token :: later, rfl, before, rfl⟩

/-- The end of the text and an at-sign end clauses and are no names. -/
theorem endsClauses_of_mark {k : TokenKind} (mark : k = .eof ∨ k = .atSign) :
    EndsClauses k ∧ NotName k := by
  rcases mark with rfl | rfl <;> simp [EndsClauses, NotName, isBlank]

/-- References are read back from their text exactly when none swallows the name behind it. -/
theorem requiresOf_requiresText (names : ∀ ref ∈ refs, IsIdentifier ref.name)
    (pins : ∀ ref ∈ refs, IsPin ref.hash) :
    requiresOf (requiresText refs) = some refs ↔ Apart refs := by
  obtain ⟨tokens, lexed, spelled⟩ := lex_requiresText names pins
  have read {used : List TokenKind} {k : TokenKind} {ks : List TokenKind} {read : List BehaviorRef}
      (parts : tokens.map Token.kind = (.keyword .requires :: used) ++ k :: ks)
      (yields : Yields parseContract (.keyword .requires :: used) (· = k)
        { inputs := [], outputs := [], guarantees := [], requires := { behaviors := read } }) :
      requiresOf (requiresText refs) = some read := by
    obtain ⟨front, rest, rfl, before, after⟩ := spelled_parts parts
    have returned := yields front rest before after
    unfold requiresOf
    rw [lexed]
    dsimp only
    rw [returned]
  have named : refs.flatMap refKinds ≠ [] → ∃ name later, refs.flatMap refKinds =
    .identifier name :: later := by
    cases refs with
    | nil => exact fun filled => absurd rfl filled
    | cons ref refs => exact fun _ => ⟨ref.name, _, rfl⟩
  by_cases apart : Apart refs
  · refine iff_of_true (read spelled (yields_requiresOnly named (fun m enough => ?_) ?_ ?_)) apart
    · exact (yields_refs pins apart ((length_le_refKinds refs).trans_lt enough)).mono fun k
        same => by
        subst same
        exact (endsClauses_of_mark (.inl rfl)).2
    · exact fun k same => endsClauses_of_mark (.inl same)
    · intro empty
      cases refs with
      | nil => rfl
      | cons ref refs => cases empty
  · refine iff_of_false (fun whole => ?_) apart
    obtain ⟨used, left, fewer, parts, short, reads⟩ := yields_swallowed pins apart
    have filled : ∃ name later, used = .identifier name :: later := by
      cases refs with
      | nil => cases short
      | cons ref refs => cases used with
        | nil => cases parts
        | cons k used => exact ⟨ref.name, used, congrArg (· :: used) (List.cons.inj parts).1.symm⟩
    have spelled' : tokens.map Token.kind = (.keyword .requires :: used) ++ .atSign ::
      (left ++ [.eof]) := by
      rw [spelled, parts]
      simp
    have part := read spelled'
      (yields_requiresOnly (fun _ => filled) reads
        (fun k same => endsClauses_of_mark (.inr same)) fun empty => by
        obtain ⟨name, later, rfl⟩ := filled
        cases empty)
    rw [whole] at part
    rw [Option.some.inj part] at short
    exact absurd short (Nat.lt_irrefl _)

/-- The hash of a HASH clause is read back. -/
theorem hashOf_hashLine {hash : String} (pin : IsPin hash) :
    hashOf (hashLine hash) = some hash := by
  obtain ⟨tokens, lexed, spelled⟩ := lex_hashLine pin
  obtain ⟨front, rest, rfl, before, after⟩ := spelled_parts spelled
  have yields : Yields parseHash (.keyword .hash :: pinKinds hash.toList) (· = .eof) hash := by
    refine .peek (.advance_bind (by simp) ((yields_expectHexString pin).mono fun k same _ => ?_))
    rintro ⟨name, rfl, -⟩
    cases same
  have returned := yields front rest before after
  unfold hashOf
  rw [lexed]
  dsimp only
  rw [returned]

end Text

/-- A list of pinned references is read back exactly when no pin of decimal digits stands in front
of a name that looks hexadecimal; the hash of a HASH clause always is. -/
theorem pins_roundTrip_iff (refs : List BehaviorRef) (hash : String)
    (names : ∀ ref ∈ refs, IsIdentifier ref.name)
    (pins : ∀ ref ∈ refs, IsPin ref.hash) (pin : IsPin hash) :
    (requiresOf (requiresText refs) = some refs ∧ hashOf (hashLine hash) = some hash) ↔
      Parser.Apart refs :=
  (and_iff_left (hashOf_hashLine pin)).trans (requiresOf_requiresText names pins)

/-- `a@12345678 parse-http@00abc123`. -/
def twoPins : List BehaviorRef := [⟨"a", "12345678"⟩, ⟨"parse-http", "00abc123"⟩]

/-- Two references, the pin of the first of digits. -/
theorem pins_roundTrip_iff_two :
    (requiresOf (requiresText twoPins) = some twoPins ∧ hashOf (hashLine "004ec810") =
      some "004ec810") ↔
      Parser.Apart twoPins := by
  refine pins_roundTrip_iff twoPins "004ec810" ?_ ?_ ⟨by decide, by decide⟩
  · rintro ref (_ | ⟨_, _ | ⟨_, ⟨⟩⟩⟩)
    · exact ⟨⟨'a', [], by decide, by decide, by decide⟩, by decide⟩
    · exact ⟨⟨'p', "arse-http".toList, by decide, by decide, by decide⟩, by decide⟩
  · rintro ref (_ | ⟨_, _ | ⟨_, ⟨⟩⟩⟩)
    · exact ⟨by decide, by decide⟩
    · exact ⟨by decide, by decide⟩

/-- `a@12345678 cafe@0abc1234`. -/
def swallowedName : List BehaviorRef := [⟨"a", "12345678"⟩, ⟨"cafe", "0abc1234"⟩]

/-- The name is taken for the end of the pin in front of it. -/
theorem requiresOf_swallowedName :
    requiresOf (requiresText swallowedName) = some [⟨"a", "12345678cafe"⟩] ∧
      requiresOf (requiresText swallowedName) ≠ some swallowedName := by
  constructor <;> decide +kernel

end Sigil
