import Sigil.Stdlib.Base64

/-!
# Base64 round trips

The characters of an encoded text by their positions; the encoder writes them, and the decoder
finds the bytes of each group in them.
-/

namespace Sigil.Stdlib

open Flow Base64

variable {n g k size fuel : Nat}

section Fill

variable {tbl : Allocation size} {d : Nat} {bound : Register} {value off : Register → Register}

/-- What a filling loop leaves in the table. -/
theorem fill_eq (upto : bound.toNat = n) (small : n < 2 ^ 63)
    (places : ∀ k : Register, k.toNat < n → (off k).toNat = d + k.toNat) (room : d + n ≤ size)
      (enough : n < fuel) :
    fill fuel bound value off tbl =
      some ⟨Buffer.copy (fun k => UInt8.ofNat (value (BitVec.ofNat 64 k)).toNat) 0 tbl.bytes d
        n⟩ := by
  let filled (i : Nat) (s : Register × Allocation size) : Prop := s.1.toNat = i ∧
    s.2.bytes = Buffer.copy (fun k => UInt8.ofNat (value (BitVec.ofNat 64 k)).toNat) 0 tbl.bytes d i
  have step : ∀ i < n, ∀ s, filled i s → ∃ s', fillBody value off s = some s' ∧
    filled (i + 1) s' := by
    rintro i below ⟨k, b⟩ ⟨count, bytes⟩
    have place := places k (count ▸ below)
    have number : BitVec.ofNat 64 i = k := by rw [← count, BitVec.ofNat_toNat, BitVec.setWidth_eq]
    dsimp only at count bytes
    simp only [fillBody, Option.bind_eq_bind]
    rw [Allocation.store_byte (by omega), Option.bind_some]
    refine ⟨_, rfl, by bv_omega, ?_⟩
    rw [Buffer.copy, ← bytes, Nat.zero_add, number, place, count]
  have start : filled 0 (0, tbl) := ⟨rfl, rfl⟩
  obtain ⟨s, ended, _, bytes⟩ := rounds_upto (fun _ _ now => now.1) upto small step start enough
  simp only [fill, Option.bind_eq_bind]
  rw [ended, Option.bind_some, ← bytes]
  rfl

end Fill

section Tables

/-- The first characters of the alphabet are the capitals. -/
theorem char_low : ∀ k < 26, UInt8.ofNat (BitVec.ofNat 64 k + 65).toNat = char k := by
  decide +kernel

/-- The next characters of the alphabet are the small letters. -/
theorem char_high : ∀ k < 26, UInt8.ofNat (BitVec.ofNat 64 k + 97).toNat = char (26 + k) := by
  decide +kernel

/-- The next characters of the alphabet are the digits. -/
theorem char_digit : ∀ k < 10, UInt8.ofNat (BitVec.ofNat 64 k + 48).toNat = char (52 + k) := by
  decide +kernel

/-- The table has the alphabet. -/
theorem buildTable_eq (tbl : Allocation 64) (enough : 64 < fuel) :
    ∃ tbl', buildTable fuel tbl = some tbl' ∧ ∀ k < 64, tbl'.bytes k = char k := by
  have first := @fill_eq 26 64 fuel tbl 0 26 (· + 65) (·) rfl (by decide) (fun k _ => by omega)
    (by decide) (by omega)
  simp only [buildTable, Option.bind_eq_bind]
  rw [first, Option.bind_some, @fill_eq 26 64 fuel _ 26 26 (· + 97) (· + 26) rfl (by decide)
      (fun k _ => by bv_omega) (by decide) (by omega), Option.bind_some,
        @fill_eq 10 64 fuel _ 52 10 (· + 48) (· + 52)
      rfl (by decide) (fun k _ => by bv_omega) (by decide) (by omega), Option.bind_some,
        Allocation.store_byte (by decide),
    Option.bind_some, Allocation.store_byte (by decide)]
  refine ⟨_, rfl, fun k below => ?_⟩
  simp only [Function.update_apply, Buffer.copy_apply, Nat.zero_le, true_and, Nat.zero_add,
    Nat.sub_zero,
    show (62 : Register).toNat = 62 from rfl, show (63 : Register).toNat = 63 from rfl]
  split_ifs with last plus digit high low
  · subst last
    decide +kernel
  · subst plus
    decide +kernel
  · rw [char_digit (k - 52) (by omega), show 52 + (k - 52) = k by omega]
  · rw [char_high (k - 26) (by omega), show 26 + (k - 26) = k by omega]
  · exact char_low k low
  · omega

/-- The table of values undoes the alphabet. -/
theorem buildReverse_eq (rev : Allocation 256) (enough : 256 < fuel) :
    ∃ rev', buildReverse fuel rev = some rev' ∧ ∀ v < 64, rev'.bytes (char v).toNat =
      UInt8.ofNat v := by
  have zeros := @fill_eq 256 256 fuel rev 0 256 (fun _ => 0) (·) rfl (by decide)
    (fun k _ => by omega) (by decide) enough
  simp only [buildReverse, Option.bind_eq_bind]
  rw [zeros, Option.bind_some, @fill_eq 26 256 fuel _ 65 26 (·) (· + 65) rfl (by decide)
    (fun k _ => by bv_omega)
      (by decide) (by omega), Option.bind_some,
        @fill_eq 26 256 fuel _ 97 26 (· + 26) (· + 97) rfl (by decide)
      (fun k _ => by bv_omega) (by decide) (by omega), Option.bind_some,
        @fill_eq 10 256 fuel _ 48 10 (· + 52) (· + 48)
      rfl (by decide) (fun k _ => by bv_omega) (by decide) (by omega), Option.bind_some,
    Allocation.store_byte (by decide), Option.bind_some, Allocation.store_byte (by decide)]
  refine ⟨_, rfl, fun v below => ?_⟩
  have byte : (char v).toNat < 256 := (char v).toNat_lt
  simp only [Function.update_apply, Buffer.copy_apply, Nat.zero_le, true_and, Nat.zero_add,
    if_pos byte]
  have undone : ∀ v < 64,
      (if (char v).toNat = 47 then UInt8.ofNat 63 else if (char v).toNat = 43 then UInt8.ofNat 62
        else if 48 ≤ (char v).toNat ∧ (char v).toNat < 48 + 10 then
          UInt8.ofNat (BitVec.ofNat 64 ((char v).toNat - 48) + 52).toNat
        else if 97 ≤ (char v).toNat ∧ (char v).toNat < 97 + 26 then
          UInt8.ofNat (BitVec.ofNat 64 ((char v).toNat - 97) + 26).toNat
        else if 65 ≤ (char v).toNat ∧ (char v).toNat < 65 + 26 then
          UInt8.ofNat (BitVec.ofNat 64 ((char v).toNat - 65)).toNat
        else 0) = UInt8.ofNat v := by decide +kernel
  exact undone v below

/-- No character of the alphabet is the padding. -/
theorem char_ne_padding : ∀ v < 64, char v ≠ padding := by decide +kernel

end Tables

section Sextets

/-- A shifted register and a low one are added. -/
theorem toNat_or_shift {x y : Register} {k : Nat} (low : y.toNat < 2 ^ k)
    (fits : x.toNat * 2 ^ k < 2 ^ 64) :
    (x <<< k ||| y).toNat = x.toNat * 2 ^ k + y.toNat := by
  rw [BitVec.toNat_or, BitVec.toNat_shiftLeft, Nat.shiftLeft_eq, Nat.mod_eq_of_lt fits,
    ← Nat.shiftLeft_eq,
    ← Nat.shiftLeft_add_eq_or_of_lt low, Nat.shiftLeft_eq]

/-- Masking the low bits takes the remainder. -/
theorem toNat_and_mask {x m : Register} (k : Nat) (mask : m.toNat = 2 ^ k - 1) :
    (x &&& m).toNat = x.toNat % 2 ^ k := by
  rw [BitVec.toNat_and, mask, Nat.and_two_pow_sub_one_eq_mod]

variable (a b c : UInt8)

/-- A sextet is less than 64. -/
theorem sextet_lt {k : Nat} : sextet a b c k < 64 := Nat.mod_lt _ (by decide)

/-- The first sextet is the high bits of the first byte. -/
theorem sextet_first : (byteReg a >>> 2).toNat = sextet a b c 0 := by
  have := a.toNat_lt
  have := b.toNat_lt
  have := c.toNat_lt
  rw [BitVec.toNat_ushiftRight, toNat_byteReg, Nat.shiftRight_eq_div_pow]
  simp only [sextet, Nat.reducePow, Nat.reduceSub]
  omega

/-- The second sextet joins the first two bytes. -/
theorem sextet_second : ((byteReg a &&& 3) <<< 4 ||| byteReg b >>> 4).toNat = sextet a b c 1 := by
  have := a.toNat_lt
  have := b.toNat_lt
  have := c.toNat_lt
  have low : (byteReg a &&& 3).toNat = a.toNat % 2 ^ 2 := by
    rw [toNat_and_mask 2 rfl, toNat_byteReg]
  have high : (byteReg b >>> 4).toNat = b.toNat / 2 ^ 4 := by
    rw [BitVec.toNat_ushiftRight, toNat_byteReg, Nat.shiftRight_eq_div_pow]
  rw [toNat_or_shift (by omega) (by omega), low, high]
  simp only [sextet, Nat.reducePow, Nat.reduceSub]
  omega

/-- The third sextet joins the last two bytes. -/
theorem sextet_third : ((byteReg b &&& 15) <<< 2 ||| byteReg c >>> 6).toNat = sextet a b c 2 := by
  have := a.toNat_lt
  have := b.toNat_lt
  have := c.toNat_lt
  have low : (byteReg b &&& 15).toNat = b.toNat % 2 ^ 4 := by
    rw [toNat_and_mask 4 rfl, toNat_byteReg]
  have high : (byteReg c >>> 6).toNat = c.toNat / 2 ^ 6 := by
    rw [BitVec.toNat_ushiftRight, toNat_byteReg, Nat.shiftRight_eq_div_pow]
  rw [toNat_or_shift (by omega) (by omega), low, high]
  simp only [sextet, Nat.reducePow, Nat.reduceSub]
  omega

/-- The fourth sextet is the low bits of the last byte. -/
theorem sextet_fourth : (byteReg c &&& 63).toNat = sextet a b c 3 := by
  have low : (byteReg c &&& 63).toNat = c.toNat % 2 ^ 6 := by
    rw [toNat_and_mask 6 rfl, toNat_byteReg]
  rw [low]
  simp only [sextet, Nat.reducePow, Nat.reduceSub]
  omega

end Sextets

section Groups

variable (b : Buffer) (s m : Nat)

/-- The byte at a position of a group of `m`. -/
def member (k : Nat) : UInt8 := if k < m then b (s + k) else 0

/-- The characters of the group of `m` bytes at an offset. -/
def group : List UInt8 :=
  let value := sextet (member b s m 0) (member b s m 1) (member b s m 2)
  [char (value 0), char (value 1), if 2 ≤ m then char (value 2) else padding,
    if 3 ≤ m then char (value 3) else padding]

variable {m}

/-- Up to three bytes are encoded as their group. -/
theorem encode_bytes_group (some' : 0 < m) : encode (b.bytes s (min 3 m)) = group b s m := by
  obtain rfl | rfl | more : m = 1 ∨ m = 2 ∨ 3 ≤ m := by omega
  · simp [Buffer.bytes, group, member, encode]
  · simp [Buffer.bytes, group, member, encode, List.range_succ]
  · have two : 2 ≤ m := by omega
    simp [Buffer.bytes, group, member, encode, List.range_succ, more, two, some',
      show 1 < m by omega, show 2 < m by omega]

/-- Another group of bytes is encoded behind those before. -/
theorem encode_bytes_succ (g : Nat) (below : 3 * g < n) :
    encode (b.bytes 0 (min (3 * (g + 1)) n)) =
      encode (b.bytes 0 (3 * g)) ++ group b (3 * g) (n - 3 * g) := by
  rw [show min (3 * (g + 1)) n = 3 * g + min 3 (n - 3 * g) by omega, Buffer.bytes_append,
    encode_append (by simp), Nat.zero_add, encode_bytes_group b _ (by omega)]

/-- A text has the characters of each group at their positions. -/
theorem text_group {text : Buffer} (encoded : text.bytes 0 (4 * ((n + 2) / 3)) =
    encode (b.bytes 0 n)) {g : Nat}
    (below : 3 * g < n) : text.bytes (4 * g) 4 = group b (3 * g) (n - 3 * g) := by
  have parts : encode (b.bytes 0 n) = encode (b.bytes 0 (3 * g)) ++ (group b (3 * g) (n - 3 * g) ++
      encode (b.bytes (3 * g + min 3 (n - 3 * g)) (n - 3 * g - min 3 (n - 3 * g)))) := by
    conv_lhs => rw [show n = 3 * g + (min 3 (n - 3 * g) + (n - 3 * g - min 3 (n - 3 * g))) by omega]
    rw [Buffer.bytes_append, Buffer.bytes_append, encode_append (by simp), Nat.zero_add,
      ← encode_bytes_group b _ (by omega)]
    by_cases full : 3 ≤ n - 3 * g
    · rw [encode_append (by simp [full])]
    · rw [show n - 3 * g - min 3 (n - 3 * g) = 0 by omega]
      simp [Buffer.bytes, encode]
  rw [parts, show 4 * ((n + 2) / 3) =
    4 * g + (4 + (4 * ((n + 2) / 3) - 4 * g - 4)) by omega, Buffer.bytes_append,
    Buffer.bytes_append, Nat.zero_add] at encoded
  have front := (List.append_inj encoded (by rw [length_encode]; simp; omega)).2
  exact (List.append_inj front rfl).1

end Groups

section Accesses

variable {a : Allocation size} {off : Register}

/-- A load in the allocation gives the byte there. -/
theorem loadMasked_eq (inside : off.toNat < size) :
    loadMasked a off = some (byteReg (a.bytes off.toNat)) := by
  simp only [loadMasked, Option.bind_eq_bind]
  rw [load_byte inside, Option.bind_some, signExtend_and_255]
  rfl

variable {data : Allocation 65536} {tbl : Allocation 64} {result : Allocation 131072}

/-- A byte that is not there is loaded as zero. -/
theorem loadIf_eq {present : Prop} [Decidable present] (inside : present → off.toNat < 65536) :
    loadIf (decide present) data off = some
      (byteReg (if present then data.bytes off.toNat else 0)) := by
  rw [loadIf]
  by_cases there : present
  · rw [decide_eq_true there, if_pos rfl, if_pos there, loadMasked_eq (inside there)]
  · rw [decide_eq_false there, if_neg Bool.false_ne_true, if_neg there]
    rfl

/-- A character that is not there is stored as padding. -/
theorem storeIf_eq {present : Prop} [Decidable present] {c o : Register} {v : Nat}
    (filled : ∀ k < 64, tbl.bytes k = char k)
    (is : c.toNat = v) (small : v < 64) (inside : o.toNat < 131072) :
    storeIf (decide present) tbl c result o =
      some ⟨Function.update result.bytes o.toNat (if present then char v else padding)⟩ := by
  rw [storeIf]
  by_cases there : present
  · rw [decide_eq_true there, if_pos rfl, if_pos there, load_byte (by omega), is, filled v small]
    simp only [Option.bind_eq_bind, Option.bind_some]
    rw [Allocation.store_byte inside, ofNat_signExtend]
  · rw [decide_eq_false there, if_neg Bool.false_ne_true, if_neg there,
      Allocation.store_byte inside]
    rfl

end Accesses

section Encoder

variable {data : Allocation 65536} {tbl : Allocation 64} {lenv : Register} {s : Encoding}

/-- One round of the encoder writes the characters of one group. -/
theorem encodeBody_eq (filled : ∀ k < 64, tbl.bytes k = char k) (count : lenv.toNat = n)
    (small : n ≤ 65536)
    (below : 3 * g < n) (read : s.i.toNat = 3 * g) (written : s.o.toNat = 4 * g) :
    ∃ s', encodeBody data tbl lenv s = some s' ∧ s'.i.toNat = 3 * (g + 1) ∧ s'.o.toNat =
      4 * (g + 1) ∧
      s'.result.bytes.bytes 0 (4 * (g + 1)) = s.result.bytes.bytes 0 (4 * g) ++ group data.bytes
        (3 * g) (n - 3 * g) := by
  obtain ⟨i, o, result⟩ := s
  dsimp only at read written ⊢
  have left : (lenv - i).toNat = n - 3 * g := by bv_omega
  have two : (2 : Register).toNat = 2 := rfl
  have three : (3 : Register).toNat = 3 := rfl
  have o1 : (o + 1).toNat = 4 * g + 1 := by bv_omega
  have o2 : (o + 2).toNat = 4 * g + 2 := by bv_omega
  have o3 : (o + 3).toNat = 4 * g + 3 := by bv_omega
  have i1 : (i + 1).toNat = 3 * g + 1 := by bv_omega
  have i2 : (i + 2).toNat = 3 * g + 2 := by bv_omega
  set a := member data.bytes (3 * g) (n - 3 * g) 0 with isA
  set b := member data.bytes (3 * g) (n - 3 * g) 1 with isB
  set c := member data.bytes (3 * g) (n - 3 * g) 2 with isC
  have firstByte : loadMasked data i = some (byteReg a) := by
    rw [loadMasked_eq (by omega), isA, member, if_pos (by omega), read, Nat.add_zero]
  have secondByte : loadIf (decide (2 ≤ n - 3 * g)) data (i + 1) = some (byteReg b) := by
    rw [loadIf_eq (by omega), isB, member, i1]
    rfl
  have thirdByte : loadIf (decide (3 ≤ n - 3 * g)) data (i + 2) = some (byteReg c) := by
    rw [loadIf_eq (by omega), isC, member, i2]
    rfl
  have first := sextet_first a b c
  have second := sextet_second a b c
  have third := sextet_third a b c
  have fourth := sextet_fourth a b c
  have sextets (k : Nat) : sextet a b c k < 64 := sextet_lt a b c
  have outside := sextets 0
  have outside' := sextets 1
  simp only [encodeBody, Option.bind_eq_bind,
    ige_eq (x := lenv - i) (y := 2) (by omega) (by decide),
    ige_eq (x := lenv - i) (y := 3) (by omega) (by decide), left, two, three]
  rw [firstByte, Option.bind_some, secondByte, Option.bind_some, thirdByte, Option.bind_some,
    load_byte (by omega),
    Option.bind_some, Allocation.store_byte (by omega), Option.bind_some, load_byte (by omega),
      Option.bind_some,
    Allocation.store_byte (by omega), Option.bind_some,
      storeIf_eq filled third (sextets 2) (by omega),
    Option.bind_some, storeIf_eq filled fourth (sextets 3) (by omega), Option.bind_some]
  refine ⟨_, rfl, by bv_omega, by bv_omega, ?_⟩
  dsimp only
  rw [show 4 * (g + 1) = 4 * g + 4 by omega, Buffer.bytes_append, Nat.zero_add]
  congr 1
  · simp only [written, o1, o2, o3]
    rw [Buffer.bytes_update_of_outside (by omega), Buffer.bytes_update_of_outside (by omega),
      Buffer.bytes_update_of_outside (by omega), Buffer.bytes_update_of_outside (by omega)]
  · simp only [first, second, ofNat_signExtend, filled _ (sextets _), written, o1, o2, o3]
    simp [Buffer.bytes, List.range_succ, group, ← isA, ← isB, ← isC]

/-- The whole number of a difference of two small ones. -/
theorem toInt_sub_of_lt {x y : Register} (small : x.toNat < 2 ^ 62) (small' : y.toNat < 2 ^ 62) :
    (x - y).toInt = (x.toNat : Int) - y.toNat := by
  rw [BitVec.toInt_sub, BitVec.toInt_eq_toNat_of_lt (by omega),
    BitVec.toInt_eq_toNat_of_lt (by omega)]
  exact Int.bmod_eq_of_le (by omega) (by omega)

/-- The encoder writes the encoded text and its length. -/
theorem base64Encode_eq {len : Allocation 8} (count : (intIn len).toNat = n) (small : n ≤ 65536)
    (enough : n + 256 < fuel)
    (tbl : Allocation 64) (result : Allocation 131072) (length : Allocation 8) :
    ∃ text length', base64Encode fuel data len tbl result length = some (text, length') ∧
      text.bytes.bytes 0 (4 * ((n + 2) / 3)) = encode (data.bytes.bytes 0 n) ∧
      (intIn length').toNat = 4 * ((n + 2) / 3) := by
  have rounds64 : 64 < fuel := by omega
  have rounds' : (n + 2) / 3 - 0 < fuel := by omega
  obtain ⟨tbl', built, filled⟩ := buildTable_eq tbl rounds64
  let encoded (g : Nat) (s : Encoding) : Prop := s.i.toNat = 3 * g ∧ s.o.toNat = 4 * g ∧
    s.result.bytes.bytes 0 (4 * g) = encode (data.bytes.bytes 0 (min (3 * g) n))
  have zero : (0 : Register).toInt = 0 := rfl
  have test (g : Nat) (le : g ≤ (n + 2) / 3) (s : Encoding) (now : encoded g s) :
      ile (intIn len - s.i) 0 = decide (n ≤ 3 * g) := by
    have at' := now.1
    rw [ile, BitVec.sle_eq_decide, toInt_sub_of_lt (by omega) (by omega), count, at', zero]
    exact decide_eq_decide.mpr (by omega)
  have step : ∀ g < (n + 2) / 3, ∀ s, encoded g s →
      ile (intIn len - s.i) 0 = false ∧ ∃ s', encodeBody data tbl' (intIn len) s = some s' ∧
        encoded (g + 1) s' := by
    intro g below s now
    obtain ⟨read, written, before⟩ := now
    have inside : 3 * g < n := by omega
    refine ⟨(test g below.le s ⟨read, written, before⟩).trans (decide_eq_false (by omega)), ?_⟩
    obtain ⟨s', stepped, read', written', wrote⟩ :=
      @encodeBody_eq n g data tbl' (intIn len) s filled count small inside read written
    refine ⟨s', stepped, read', written', ?_⟩
    rw [wrote, before, encode_bytes_succ _ g inside, Nat.min_eq_left inside.le]
  have stop (s : Encoding) (now : encoded ((n + 2) / 3) s) : ile (intIn len - s.i) 0 = true :=
    (test _ le_rfl s now).trans (decide_eq_true (by omega))
  have start : encoded 0 ⟨0, 0, result⟩ := ⟨rfl, rfl, by simp [Buffer.bytes, encode]⟩
  obtain ⟨s, ended, -, written, wrote⟩ := rounds_counted stop step start (Nat.zero_le _) rounds'
  simp only [base64Encode, Option.bind_eq_bind]
  rw [load_intIn, Option.bind_some, built, Option.bind_some, ended, Option.bind_some,
    Allocation.store_byte (by omega),
    Option.bind_some, store_int, Option.bind_some]
  refine ⟨_, _, rfl, ?_, ?_⟩
  · rw [Buffer.bytes_update_of_outside (by omega), wrote, Nat.min_eq_right (by omega)]
  · rw [toNat_intIn, Buffer.load_store s.o.isLt, written]

end Encoder

section Decoder

variable {data : Allocation 131072} {rev : Allocation 256} {source : Buffer} {s : Decoding}

/-- The low byte of a shifted register and a low one. -/
theorem ofNat_and_255 {x y : Register} {k : Nat} (low : y.toNat < 2 ^ k)
    (fits : x.toNat * 2 ^ k < 2 ^ 64) :
    UInt8.ofNat ((x <<< k ||| y) &&& 255).toNat = UInt8.ofNat (x.toNat * 2 ^ k + y.toNat) := by
  rw [toNat_and_mask 8 rfl, toNat_or_shift low fits, ← UInt8.toNat_inj, UInt8.toNat_ofNat',
    UInt8.toNat_ofNat', Nat.mod_mod]

section Bytes

variable (a b c : UInt8)

/-- The register with the value of a character. -/
def sextetReg (k : Nat) : Register := byteReg (UInt8.ofNat (sextet a b c k))

/-- The register of a sextet holds it. -/
theorem toNat_sextetReg (k : Nat) : (sextetReg a b c k).toNat = sextet a b c k := by
  have small : sextet a b c k < 64 := sextet_lt a b c
  rw [sextetReg, toNat_byteReg, UInt8.toNat_ofNat']
  omega

/-- The first two sextets give the first byte. -/
theorem byte_first :
    UInt8.ofNat ((sextetReg a b c 0 <<< 2 ||| sextetReg a b c 1 >>> 4) &&& 255).toNat = a := by
  have small : sextet a b c 0 < 64 := sextet_lt a b c
  have small' : sextet a b c 1 < 64 := sextet_lt a b c
  have high : (sextetReg a b c 1 >>> 4).toNat = sextet a b c 1 / 2 ^ 4 := by
    rw [BitVec.toNat_ushiftRight, toNat_sextetReg, Nat.shiftRight_eq_div_pow]
  rw [ofNat_and_255 (by omega) (by rw [toNat_sextetReg]; omega), high, toNat_sextetReg,
    ← UInt8.toNat_inj, UInt8.toNat_ofNat']
  have := a.toNat_lt
  have := b.toNat_lt
  have := c.toNat_lt
  simp only [sextet, Nat.reducePow, Nat.reduceSub]
  omega

/-- The second and the third sextet give the second byte. -/
theorem byte_second :
    UInt8.ofNat (((sextetReg a b c 1 &&& 15) <<< 4 ||| sextetReg a b c 2 >>> 2) &&& 255).toNat =
      b := by
  have small : sextet a b c 2 < 64 := sextet_lt a b c
  have low : (sextetReg a b c 1 &&& 15).toNat = sextet a b c 1 % 2 ^ 4 := by
    rw [toNat_and_mask 4 rfl, toNat_sextetReg]
  have high : (sextetReg a b c 2 >>> 2).toNat = sextet a b c 2 / 2 ^ 2 := by
    rw [BitVec.toNat_ushiftRight, toNat_sextetReg, Nat.shiftRight_eq_div_pow]
  rw [ofNat_and_255 (by omega) (by omega), low, high, ← UInt8.toNat_inj, UInt8.toNat_ofNat']
  have := a.toNat_lt
  have := b.toNat_lt
  have := c.toNat_lt
  simp only [sextet, Nat.reducePow, Nat.reduceSub]
  omega

/-- The last two sextets give the third byte. -/
theorem byte_third :
    UInt8.ofNat (((sextetReg a b c 2 &&& 3) <<< 6 ||| sextetReg a b c 3) &&& 255).toNat = c := by
  have small : sextet a b c 3 < 64 := sextet_lt a b c
  have low : (sextetReg a b c 2 &&& 3).toNat = sextet a b c 2 % 2 ^ 2 := by
    rw [toNat_and_mask 2 rfl, toNat_sextetReg]
  rw [ofNat_and_255 (by rw [toNat_sextetReg]; omega) (by omega), low, toNat_sextetReg,
    ← UInt8.toNat_inj, UInt8.toNat_ofNat']
  have := a.toNat_lt
  have := b.toNat_lt
  have := c.toNat_lt
  simp only [sextet, Nat.reducePow, Nat.reduceSub]
  omega

end Bytes

/-- The reverse table gives back a sextet from its character. -/
theorem loadMasked_char (undone : ∀ v < 64, rev.bytes (char v).toNat = UInt8.ofNat v)
    (a b c : UInt8) (k : Nat) :
    loadMasked rev (byteReg (char (sextet a b c k))) = some (sextetReg a b c k) := by
  rw [loadMasked_eq (by rw [toNat_byteReg]; exact (char _).toNat_lt), toNat_byteReg,
    undone _ (sextet_lt a b c)]
  rfl

/-- The register of a character is not the padding. -/
theorem byteReg_char_ne {v : Nat} (small : v < 64) : byteReg (char v) ≠ 61 := by
  intro same
  refine char_ne_padding v small (UInt8.toNat_inj.mp ?_)
  rw [← toNat_byteReg, same]
  rfl

/-- One round of the decoder writes the bytes of one group. -/
theorem decodeBody_eq (undone : ∀ v < 64, rev.bytes (char v).toNat = UInt8.ofNat v)
    (small : n ≤ 65536) (below : 3 * g < n)
    (text : data.bytes.bytes (4 * g) 4 = group source (3 * g) (n - 3 * g))
      (read : s.i.toNat = 4 * g)
    (written : s.o.toNat = 3 * g) :
    ∃ s', decodeBody data rev s = some s' ∧ s'.i.toNat = 4 * (g + 1) ∧ s'.o.toNat =
      min (3 * (g + 1)) n ∧
      s'.result.bytes.bytes 0 (min (3 * (g + 1)) n) =
        s.result.bytes.bytes 0 (3 * g) ++ source.bytes (3 * g) (min 3 (n - 3 * g)) := by
  obtain ⟨i, o, result⟩ := s
  dsimp only at read written ⊢
  have o1 : (o + 1).toNat = 3 * g + 1 := by bv_omega
  have o2 : (o + 1 + 1).toNat = 3 * g + 2 := by bv_omega
  have o3 : (o + 1 + 1 + 1).toNat = 3 * g + 3 := by bv_omega
  have i1 : (i + 1).toNat = 4 * g + 1 := by bv_omega
  have i2 : (i + 2).toNat = 4 * g + 2 := by bv_omega
  have i3 : (i + 3).toNat = 4 * g + 3 := by bv_omega
  have i4 : (i + 4).toNat = 4 * (g + 1) := by bv_omega
  have firstChar : loadMasked data i = _ := loadMasked_eq (by omega)
  have secondChar : loadMasked data (i + 1) = _ := loadMasked_eq (by omega)
  have thirdChar : loadMasked data (i + 2) = _ := loadMasked_eq (by omega)
  have fourthChar : loadMasked data (i + 3) = _ := loadMasked_eq (by omega)
  obtain ⟨c0, c1, c2, c3⟩ : data.bytes (4 * g) = _ ∧ data.bytes (4 * g + 1) = _ ∧
    data.bytes (4 * g + 2) = _ ∧
      data.bytes (4 * g + 3) = _ := by
    simpa [Buffer.bytes, List.range_succ, group] using text
  rw [read, c0] at firstChar
  rw [i1, c1] at secondChar
  rw [i2, c2] at thirdChar
  rw [i3, c3] at fourthChar
  set a := member source (3 * g) (n - 3 * g) 0 with isA
  set b := member source (3 * g) (n - 3 * g) 1 with isB
  set c := member source (3 * g) (n - 3 * g) 2 with isC
  have full : decide (byteReg padding = 61) = true := by decide
  have valued (k : Nat) : decide (byteReg (char (sextet a b c k)) = 61) = false :=
    decide_eq_false (byteReg_char_ne (sextet_lt a b c))
  have value := loadMasked_char undone a b c
  simp only [decodeBody, Option.bind_eq_bind]
  rw [firstChar, Option.bind_some, secondChar, Option.bind_some, thirdChar, Option.bind_some,
    fourthChar,
    Option.bind_some, value, Option.bind_some, value, Option.bind_some]
  -- the last group may hold one byte or two
  obtain one | two | more : n - 3 * g = 1 ∨ n - 3 * g = 2 ∨ 3 ≤ n - 3 * g := by omega
  · have isA' : a = source (3 * g) := by simp [isA, member, one]
    simp only [one, Nat.reduceLeDiff, if_false, full, valueIf, if_true, Option.bind_some]
    rw [Allocation.store_byte (by omega), Option.bind_some, byte_first]
    refine ⟨_, rfl, i4, by dsimp only; omega, ?_⟩
    dsimp only
    rw [show min (3 * (g + 1)) n = 3 * g +
      1 by omega, Buffer.bytes_append, Nat.zero_add, written, isA',
      Buffer.bytes_update_of_outside (by omega)]
    simp [Buffer.bytes]
  · have isA' : a = source (3 * g) := by simp [isA, member, two]
    have isB' : b = source (3 * g + 1) := by simp [isB, member, two]
    simp only [two, Nat.le_refl, Nat.reduceLeDiff, if_false, full, valued, valueIf, if_true,
      value, Option.bind_some,
      Bool.false_eq_true]
    rw [Allocation.store_byte (by omega), Option.bind_some, byte_first,
      Allocation.store_byte (by omega),
      Option.bind_some, byte_second]
    refine ⟨_, rfl, i4, by dsimp only; omega, ?_⟩
    dsimp only
    rw [show min (3 * (g + 1)) n = 3 * g +
      2 by omega, Buffer.bytes_append, Nat.zero_add, written, o1, isA', isB',
      Buffer.bytes_update_of_outside (s := 0) (by omega),
        Buffer.bytes_update_of_outside (s := 0) (by omega)]
    simp [Buffer.bytes, List.range_succ]
  · have isA' : a = source (3 * g) := by simp [isA, member]; omega
    have isB' : b = source (3 * g + 1) := by simp [isB, member]; omega
    have isC' : c = source (3 * g + 2) := by simp [isC, member]; omega
    have two : 2 ≤ n - 3 * g := by omega
    simp only [two, more, valued, valueIf, if_true, if_false, value, Option.bind_some,
      Bool.false_eq_true]
    rw [Allocation.store_byte (by omega), Option.bind_some, byte_first,
      Allocation.store_byte (by omega),
      Option.bind_some, byte_second, Allocation.store_byte (by omega), Option.bind_some, byte_third]
    refine ⟨_, rfl, i4, by dsimp only; omega, ?_⟩
    dsimp only
    rw [show min (3 * (g + 1)) n = 3 * g +
      3 by omega, show min 3 (n - 3 * g) = 3 by omega, Buffer.bytes_append,
      Nat.zero_add, written, o1, o2, isA', isB', isC',
        Buffer.bytes_update_of_outside (s := 0) (by omega),
      Buffer.bytes_update_of_outside (s := 0) (by omega),
        Buffer.bytes_update_of_outside (s := 0) (by omega)]
    simp [Buffer.bytes, List.range_succ]

/-- Small registers are compared as numbers. -/
theorem ilt_eq {x y : Register} (small : x.toNat < 2 ^ 63) (small' : y.toNat < 2 ^ 63) :
    ilt x y = decide (x.toNat < y.toNat) := by
  rw [ilt, BitVec.slt_eq_decide, BitVec.toInt_eq_toNat_of_lt (by omega),
    BitVec.toInt_eq_toNat_of_lt (by omega)]
  simp

/-- The decoder finds the bytes of an encoded text and their number. -/
theorem base64Decode_eq {len : Allocation 8} (small : n ≤ 65536)
    (count : (intIn len).toNat = 4 * ((n + 2) / 3))
    (encoded : data.bytes.bytes 0 (4 * ((n + 2) / 3)) = encode (source.bytes 0 n))
      (enough : n + 256 < fuel)
    (rev : Allocation 256) (result : Allocation 98304) (length : Allocation 8) :
    ∃ out length', base64Decode fuel data len rev result length = some (out, length') ∧
      out.bytes.bytes 0 n = source.bytes 0 n ∧ (intIn length').toNat = n := by
  have rounds256 : 256 < fuel := by omega
  have rounds' : (n + 2) / 3 - 0 < fuel := by omega
  obtain ⟨rev', built, undone⟩ := buildReverse_eq rev rounds256
  let decoded (g : Nat) (s : Decoding) : Prop := s.i.toNat = 4 * g ∧ s.o.toNat = min (3 * g) n ∧
    s.result.bytes.bytes 0 (min (3 * g) n) = source.bytes 0 (min (3 * g) n)
  have four : (4 : Register).toNat = 4 := rfl
  have test (g : Nat) (le : g ≤ (n + 2) / 3) (s : Decoding) (now : decoded g s) :
      ilt (intIn len - s.i) 4 = decide (g = (n + 2) / 3) := by
    have at' := now.1
    have left : (intIn len - s.i).toNat = 4 * ((n + 2) / 3) - 4 * g := by
      generalize intIn len = lenv at count ⊢
      bv_omega
    rw [ilt_eq (by omega) (by decide), left, four]
    exact decide_eq_decide.mpr (by omega)
  have step : ∀ g < (n + 2) / 3, ∀ s, decoded g s →
      ilt (intIn len - s.i) 4 = false ∧ ∃ s', decodeBody data rev' s = some s' ∧
        decoded (g + 1) s' := by
    intro g below s now
    obtain ⟨read, written, before⟩ := now
    have inside : 3 * g < n := by omega
    refine ⟨(test g below.le s ⟨read, written, before⟩).trans (decide_eq_false (by omega)), ?_⟩
    rw [Nat.min_eq_left inside.le] at written before
    obtain ⟨s', stepped, read', written', wrote⟩ :=
      decodeBody_eq undone small inside (text_group source encoded inside) read written
    refine ⟨s', stepped, read', written', ?_⟩
    rw [wrote, before, show min (3 * (g + 1)) n =
      3 * g + min 3 (n - 3 * g) by omega, Buffer.bytes_append, Nat.zero_add]
  have stop (s : Decoding) (now : decoded ((n + 2) / 3) s) : ilt (intIn len - s.i) 4 = true :=
    (test _ le_rfl s now).trans (decide_eq_true rfl)
  have start (b : Allocation 98304) : decoded 0 ⟨0, 0, b⟩ := ⟨rfl, by simp, by simp [Buffer.bytes]⟩
  simp only [base64Decode, Option.bind_eq_bind]
  rw [load_intIn, Option.bind_some, built, Option.bind_some, Allocation.store_byte (by decide),
    Option.bind_some]
  obtain ⟨s, ended, -, written, wrote⟩ := rounds_counted stop step (start _) (Nat.zero_le _) rounds'
  rw [ended, Option.bind_some, store_int, Option.bind_some]
  rw [Nat.min_eq_right (by omega)] at written wrote
  exact ⟨_, _, rfl, wrote, by rw [toNat_intIn, Buffer.load_store s.o.isLt, written]⟩

end Decoder

section RoundTrip

/-- The encoder writes the encoded text of the first bytes and its length, and the decoder finds the
bytes and their number in any buffer with this text, both without an access outside a buffer. -/
def Base64RoundTrips (fuel : Nat) (data : Allocation 65536) (len : Allocation 8) : Prop :=
  ∀ tbl result length, ∃ text length', base64Encode fuel data len tbl result length =
    some (text, length') ∧
    text.bytes.bytes 0 (intIn length').toNat = encode (data.bytes.bytes 0 (intIn len).toNat) ∧
    ∀ text' : Allocation 131072,
      text'.bytes.bytes 0 (intIn length').toNat = text.bytes.bytes 0 (intIn length').toNat →
      ∀ rev result length, ∃ out count, base64Decode fuel text' length' rev result length =
        some (out, count) ∧
        out.bytes.bytes 0 (intIn len).toNat = data.bytes.bytes 0 (intIn len).toNat ∧
          intIn count = intIn len

/-- Decoding the encoded bytes gives the bytes. -/
theorem base64RoundTrips {data : Allocation 65536} {len : Allocation 8}
    (small : (intIn len).toNat ≤ 65536)
    (enough : (intIn len).toNat + 256 < fuel) : Base64RoundTrips fuel data len := by
  intro tbl result length
  obtain ⟨text, length', ran, encoded, count⟩ := base64Encode_eq rfl small enough tbl result length
  refine ⟨text, length', ran, by rw [count]; exact encoded, fun text' same rev result length => ?_⟩
  rw [count] at same
  obtain ⟨out, count', ran', decoded, number⟩ :=
    base64Decode_eq small count (same.trans encoded) enough rev result length
  exact ⟨out, count', ran', decoded, BitVec.eq_of_toNat_eq number⟩

/-- Five bytes. -/
theorem base64RoundTrips_short : Base64RoundTrips 512 ⟨fun i => UInt8.ofNat i⟩ (intOf 5) :=
  base64RoundTrips (by rw [toNat_intIn, load_intOf (by decide)]; decide)
    (by rw [toNat_intIn, load_intOf (by decide)]; decide)

end RoundTrip

end Sigil.Stdlib
