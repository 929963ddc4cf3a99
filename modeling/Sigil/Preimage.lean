import Sigil.ContractHash
import Sigil.Flow.Framing
import Sigil.Parser

/-!
# What the contract hash is computed from

Names end at a type byte or at a mark, so parameters and sections can be read back. A pin
is followed by the next name at once: references that only move text from a pin to the
name after it, or back, have one preimage.
-/

namespace Sigil

open Flow

/-- A byte of an identifier is no type byte, no `:` and no `@`. -/
def IdentByte (b : UInt8) : Prop := 4 < b.toNat ∧ b ≠ 0x3A ∧ b ≠ 0x40

instance : DecidablePred IdentByte := fun b =>
  inferInstanceAs (Decidable (4 < b.toNat ∧ b ≠ 0x3A ∧ b ≠ 0x40))

/-- The UTF-8 bytes of some characters. -/
def encodeChars (chars : List Char) : List UInt8 := chars.flatMap String.utf8EncodeChar

/-- The UTF-8 bytes of a string are its encoded characters. -/
theorem utf8Bytes_eq (s : String) : utf8Bytes s = encodeChars s.toList := by
  rw [utf8Bytes, String.toUTF8_eq_toByteArray, ← String.utf8Encode_toList]
  exact List.toList_data_toByteArray

/-- Texts are encoded one after the other. -/
theorem encodeChars_append (u v : List Char) :
    encodeChars (u ++ v) = encodeChars u ++ encodeChars v :=
  List.flatMap_append

/-- Different strings have different bytes. -/
theorem utf8Bytes_injective : Function.Injective utf8Bytes := by
  intro s t same
  have arrays : s.toByteArray.data = t.toByteArray.data := Array.ext' same
  exact String.toByteArray_inj.mp (ByteArray.ext arrays)

/-- Different texts are encoded differently. -/
theorem encodeChars_injective : Function.Injective encodeChars := by
  intro u v same
  have strings : utf8Bytes (String.ofList u) = utf8Bytes (String.ofList v) := by
    rwa [utf8Bytes_eq, utf8Bytes_eq, String.toList_ofList, String.toList_ofList]
  exact String.ofList_injective (utf8Bytes_injective strings)

/-- The bytes of a hash text are identifier bytes. -/
theorem identByte_of_mem {text : String} (ident : IsHashText text) :
    ∀ b ∈ utf8Bytes text, IdentByte b := by
  intro b member
  rw [utf8Bytes_eq] at member
  obtain ⟨c, known, coded⟩ := List.mem_flatMap.mp member
  have all := forall_isIdentChar (P := fun c => (String.utf8EncodeChar c).all fun b => decide (IdentByte b))
    (by decide +kernel) (List.all_eq_true.mp ident c known)
  exact of_decide_eq_true (List.all_eq_true.mp all b coded)

/-- Different 64-bit sizes have different little-endian bytes. -/
theorem sizeToLeBytes_inj {a b : Nat} (ha : a < 2 ^ 64) (hb : b < 2 ^ 64)
    (same : sizeToLeBytes a = sizeToLeBytes b) : a = b := by
  have bytes : ∀ i < 8, a >>> (8 * i) % 256 = b >>> (8 * i) % 256 := by
    intro i bound
    have here := List.map_inj_left.mp same i (List.mem_range.mpr bound)
    simpa using congrArg UInt8.toNat here
  have b0 := bytes 0 (by decide)
  have b1 := bytes 1 (by decide)
  have b2 := bytes 2 (by decide)
  have b3 := bytes 3 (by decide)
  have b4 := bytes 4 (by decide)
  have b5 := bytes 5 (by decide)
  have b6 := bytes 6 (by decide)
  have b7 := bytes 7 (by decide)
  simp only [Nat.shiftRight_eq_div_pow] at b0 b1 b2 b3 b4 b5 b6 b7
  omega

/-- Different types have different bytes. -/
theorem AstType.toByte_injective : Function.Injective AstType.toByte := by
  intro a b same
  cases a <;> cases b <;> first | rfl | exact absurd same (by decide)

/-- Different guarantees have different bytes. -/
theorem Guarantee.toByte_injective : Function.Injective Guarantee.toByte := by
  intro a b same
  cases a <;> cases b <;> first | rfl | exact absurd same (by decide)

/-- The byte of a type is no identifier byte. -/
theorem AstType.not_identByte_toByte (typ : AstType) : ¬ IdentByte typ.toByte := by
  cases typ <;> decide

/-- Parameters can be read off the text up to a mark. -/
theorem framed_hashBytes {word : List UInt8} (inner : ∀ b ∈ word, IdentByte b) :
    Framed Parameter.Spelled Parameter.hashBytes (word ++ [0x3A]) where
  read := by
    intro param param' s t spelled spelled' same
    simp only [Parameter.hashBytes, List.append_assoc, List.singleton_append] at same
    obtain ⟨name, typ, rest⟩ := (word_inj (identByte_of_mem spelled.1.isHashText)
      (identByte_of_mem spelled'.1.isHashText) param.typ.not_identByte_toByte
      param'.typ.not_identByte_toByte).mp same
    obtain ⟨size, tails⟩ := List.append_inj rest (by simp [sizeToLeBytes])
    refine ⟨?_, tails⟩
    cases param
    cases param'
    rw [Parameter.mk.injEq]
    exact ⟨utf8Bytes_injective name, AstType.toByte_injective typ,
      sizeToLeBytes_inj spelled.2 spelled'.2 size⟩
  ends := by
    intro param s t spelled same
    simp only [Parameter.hashBytes, List.append_assoc, List.singleton_append] at same
    obtain ⟨_, typ, _⟩ := (word_inj (identByte_of_mem spelled.1.isHashText) inner
      param.typ.not_identByte_toByte (by decide)).mp same
    exact absurd typ (by cases param.typ <;> decide)

/-- A reference as the characters of its name and of its pin. -/
def BehaviorRef.chars (ref : BehaviorRef) : List Char × List Char :=
  (ref.name.toList, ref.hash.toList)

/-- Two lists of references written without separators have the same text between the
`@` signs. -/
def SameJoints (refs refs' : List BehaviorRef) : Prop :=
  joints [] (refs.map BehaviorRef.chars) = joints [] (refs'.map BehaviorRef.chars)

/-- Everything a contract declares but MEMORY. -/
def Contract.AgreesWith (contract contract' : Contract) : Prop :=
  contract.inputs = contract'.inputs ∧ contract.outputs = contract'.outputs ∧
    contract.requires.behaviors = contract'.requires.behaviors ∧
    contract.guarantees = contract'.guarantees

/-- Two contracts whose references differ by text moved between a pin and the name after
it, and by nothing else. -/
def Contract.MovedPins (contract contract' : Contract) : Prop :=
  contract.inputs = contract'.inputs ∧ contract.outputs = contract'.outputs ∧
    contract.guarantees = contract'.guarantees ∧
    SameJoints contract.requires.behaviors contract'.requires.behaviors ∧
    contract.requires.behaviors ≠ contract'.requires.behaviors

section Preimage

variable {contract contract' : Contract}

/-- A reference as the words it is hashed as. -/
def BehaviorRef.words (ref : BehaviorRef) : List UInt8 × List UInt8 :=
  (utf8Bytes ref.name, utf8Bytes ref.hash)

/-- The joints of the bytes of references are those of their characters, encoded. -/
theorem joints_words (refs : List BehaviorRef) :
    joints [] (refs.map BehaviorRef.words) =
      (joints [] (refs.map BehaviorRef.chars)).map encodeChars := by
  rw [← joints_map encodeChars_append, List.map_map]
  congr 2
  funext ref
  simp [BehaviorRef.words, BehaviorRef.chars, utf8Bytes_eq]

/-- The sections of the preimage, each mark in front of what follows it. -/
theorem hashInput_eq : contract.hashInput = utf8Bytes "INPUTS:" ++
    (contract.inputs.flatMap Parameter.hashBytes ++ ((utf8Bytes "OUTPUTS" ++ [0x3A]) ++
      (contract.outputs.flatMap Parameter.hashBytes ++ ((utf8Bytes "REQUIRES" ++ [0x3A]) ++
        ([] ++ ((contract.requires.behaviors.map BehaviorRef.words).flatMap
          (fun p => p.1 ++ 0x40 :: p.2) ++ (utf8Bytes "GUARANTEES" ++
            0x3A :: contract.guarantees.map Guarantee.toByte))))))) := by
  have refs : (contract.requires.behaviors.map BehaviorRef.words).flatMap
      (fun p => p.1 ++ 0x40 :: p.2) = contract.requires.behaviors.flatMap BehaviorRef.hashBytes := by
    rw [List.flatMap_map]
    congr 1
    funext ref
    simp [BehaviorRef.words, BehaviorRef.hashBytes, show utf8Bytes "@" = [0x40] by decide]
  rw [refs]
  simp [Contract.hashInput, List.append_assoc,
    show utf8Bytes "OUTPUTS:" = utf8Bytes "OUTPUTS" ++ [0x3A] by decide,
    show utf8Bytes "REQUIRES:" = utf8Bytes "REQUIRES" ++ [0x3A] by decide,
    show utf8Bytes "GUARANTEES:" = utf8Bytes "GUARANTEES" ++ [0x3A] by decide]

/-- What two contracts with one preimage have in common. -/
theorem hashInput_eq_iff (spelled : contract.Spelled) (spelled' : contract'.Spelled) :
    contract.hashInput = contract'.hashInput ↔
      contract.inputs = contract'.inputs ∧ contract.outputs = contract'.outputs ∧
        SameJoints contract.requires.behaviors contract'.requires.behaviors ∧
        contract.guarantees = contract'.guarantees := by
  have words : ∀ refs : List BehaviorRef, (∀ ref ∈ refs, ref.Spelled) →
      ∀ p ∈ refs.map BehaviorRef.words, (∀ b ∈ p.1, IdentByte b) ∧ ∀ b ∈ p.2, IdentByte b := by
    intro refs all p member
    obtain ⟨ref, listed, rfl⟩ := List.mem_map.mp member
    exact ⟨identByte_of_mem (all ref listed).1.isHashText, identByte_of_mem (all ref listed).2⟩
  have refs := @pairs_inj _ IdentByte 0x40 0x3A (by decide) (by decide) (by decide) _
    (contract.guarantees.map Guarantee.toByte) (contract'.guarantees.map Guarantee.toByte) [] [] _ _
    (by simp) (by simp) (@identByte_of_mem "GUARANTEES" rfl) (words _ spelled.refs)
    (words _ spelled'.refs)
  rw [joints_words, joints_words, (List.map_injective_iff.mpr encodeChars_injective).eq_iff,
    (List.map_injective_iff.mpr Guarantee.toByte_injective).eq_iff] at refs
  rw [hashInput_eq, hashInput_eq, List.append_cancel_left_eq,
    (framed_hashBytes (@identByte_of_mem "OUTPUTS" rfl)).flatMap_inj
      spelled.inputs spelled'.inputs,
    (framed_hashBytes (@identByte_of_mem "REQUIRES" rfl)).flatMap_inj
      spelled.outputs spelled'.outputs, refs]
  rfl

/-- Two contracts have one preimage exactly when they agree, unless their references differ
by text moved between a pin and the name after it. -/
theorem hashInput_injective_iff (parsed : contract.Parsed) (parsed' : contract'.Parsed) :
    (contract.hashInput = contract'.hashInput ↔ contract.AgreesWith contract') ↔
      ¬ contract.MovedPins contract' := by
  rw [hashInput_eq_iff parsed.spelled parsed'.spelled]
  unfold Contract.AgreesWith Contract.MovedPins
  constructor
  · rintro injective ⟨inputs, outputs, guarantees, joints, differ⟩
    exact differ (injective.mp ⟨inputs, outputs, joints, guarantees⟩).2.2.1
  · intro fixed
    constructor
    · rintro ⟨inputs, outputs, joints, guarantees⟩
      refine ⟨inputs, outputs, ?_, guarantees⟩
      by_contra differ
      exact fixed ⟨inputs, outputs, guarantees, joints, differ⟩
    · rintro ⟨inputs, outputs, refs, guarantees⟩
      exact ⟨inputs, outputs, refs ▸ rfl, guarantees⟩

end Preimage

/-- A contract with references and nothing else. -/
def requiring (refs : List BehaviorRef) : Contract where
  inputs := []
  outputs := []
  requires := { behaviors := refs }
  guarantees := []

def pinnedPair : Contract := requiring [⟨"a", "deadbeef"⟩, ⟨"c", "cafebabe"⟩]

/-- The pin of the first reference as part of the second name. -/
def movedPair : Contract := requiring [⟨"a", ""⟩, ⟨"deadbeefc", "cafebabe"⟩]

/-- `pinnedPair` is a contract the parser can produce. -/
theorem pinnedPair_parsed : pinnedPair.Parsed :=
  @parsed_of_contractOf "CONTRACT\n  REQUIRES a@deadbeef c@cafebabe" _ (by decide +kernel)

/-- `movedPair` is a contract the parser can produce. -/
theorem movedPair_parsed : movedPair.Parsed :=
  @parsed_of_contractOf "CONTRACT\n  REQUIRES a deadbeefc@cafebabe" _ (by decide +kernel)

/-- Two contracts with one preimage. -/
theorem hashInput_injective_iff_pair :
    (pinnedPair.hashInput = movedPair.hashInput ↔ pinnedPair.AgreesWith movedPair) ↔
      ¬ pinnedPair.MovedPins movedPair :=
  hashInput_injective_iff pinnedPair_parsed movedPair_parsed

/-- `a@deadbeef c@cafebabe` and `a deadbeefc@cafebabe` have one preimage. -/
theorem movedPair_same_preimage : ∃ contract contract' : Contract, contract.Parsed ∧
    contract'.Parsed ∧
      ¬ (contract.hashInput = contract'.hashInput ↔ contract.AgreesWith contract') := by
  refine ⟨pinnedPair, movedPair, pinnedPair_parsed, movedPair_parsed, fun injective => ?_⟩
  have agrees := injective.mp (by decide +kernel)
  exact absurd agrees.2.2.1 (by decide)

end Sigil
