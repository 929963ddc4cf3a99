import Sigil.Stdlib.Registers

/-!
# The hex behaviors

`hex-encode` and `hex-decode`, with what their outputs hold before. Each loop runs `fuel` rounds
at most. What is encoded is decoded again, except where the terminator of the text has no room.
-/

namespace Sigil.Stdlib

open Flow

/-- The character of a nibble. -/
def hexChar (nibble : Register) : Register :=
  let hge := flag (ige nibble 10)
  let hadd := hge * 39
  let hch := nibble + 48
  hch + hadd

/-- The registers and the result of the encoding loop. -/
structure HexEncoding where
  i : Register
  out : Register
  result : Allocation 131072

def hexEncodeBody (data : Allocation 65536) (s : HexEncoding) : Option HexEncoding := do
  let b ← data.load 1 s.i
  let bu := b &&& 255
  let hi := bu >>> 4
  let lo := bu &&& 15
  let result ← s.result.store (hexChar hi) 1 s.out
  let out := s.out + 1
  let result ← result.store (hexChar lo) 1 out
  let out := out + 1
  return ⟨s.i + 1, out, result⟩

/-- `hex-encode`: the text and its length. -/
def hexEncode (fuel : Nat) (data : Allocation 65536) (len : Allocation 8)
    (result : Allocation 131072)
    (length : Allocation 8) : Option (Allocation 131072 × Allocation 8) := do
  let result ← result.store 0 1 0
  let lenv ← len.load 8 0
  let s ← rounds (fun s => ige s.i lenv) (hexEncodeBody data) fuel ⟨0, 0, result⟩
  let result ← s.result.store 0 1 s.out
  let length ← length.store s.out 8 0
  return (result, length)

/-- The value of a hex character. -/
def hexValue (cu : Register) : Register :=
  if ile cu 57 then cu - 48
  else if ige cu 97 then cu - 87
  else cu - 55

/-- The registers and the result of the decoding loop. -/
structure HexDecoding where
  i : Register
  out : Register
  nibcount : Register
  curbyte : Register
  result : Allocation 65536

def hexDecodeBody (text : Allocation 131072) (s : HexDecoding) : Option HexDecoding := do
  let c ← text.load 1 s.i
  let cu := c &&& 255
  let v := hexValue cu
  if s.nibcount = 0 then
    return { s with curbyte := v <<< 4, nibcount := 1, i := s.i + 1 }
  else
    let curbyte := s.curbyte ||| v
    let result ← s.result.store curbyte 1 s.out
    return { i := s.i + 1, out := s.out + 1, nibcount := 0, curbyte := curbyte, result := result }

/-- `hex-decode`: the bytes and their number. -/
def hexDecode (fuel : Nat) (text : Allocation 131072) (len : Allocation 8)
    (result : Allocation 65536)
    (length : Allocation 8) : Option (Allocation 65536 × Allocation 8) := do
  let result ← result.store 0 1 0
  let lenv ← len.load 8 0
  let s ← rounds (fun s => ige s.i lenv) (hexDecodeBody text) fuel ⟨0, 0, 0, 0, result⟩
  let result ← s.result.store 0 1 s.out
  let length ← length.store s.out 8 0
  return (result, length)

section Characters

/-- The high nibble of a byte as a character. -/
def highChar (b : UInt8) : UInt8 := UInt8.ofNat (hexChar (byteReg b >>> 4)).toNat

/-- The low nibble of a byte as a character. -/
def lowChar (b : UInt8) : UInt8 := UInt8.ofNat (hexChar (byteReg b &&& 15)).toNat

/-- The nibbles of the characters make the byte. -/
theorem hexValue_chars (b : UInt8) :
    UInt8.ofNat (hexValue (byteReg (highChar b)) <<< 4 ||| hexValue (byteReg (lowChar b))).toNat
      = b := by
  have every : ∀ n < 256, UInt8.ofNat (hexValue (byteReg (highChar (UInt8.ofNat n))) <<< 4 |||
      hexValue (byteReg (lowChar (UInt8.ofNat n)))).toNat = UInt8.ofNat n := by decide +kernel
  simpa using every b.toNat b.toNat_lt

/-- The characters of some bytes. -/
def hexText (data : Buffer) (j : Nat) : UInt8 :=
  if j % 2 = 0 then highChar (data (j / 2)) else lowChar (data (j / 2))

end Characters

section Encoding

variable {data : Allocation 65536} {result : Allocation 131072} {i : Nat} {s : HexEncoding}

/-- One byte is encoded as its two digits. -/
theorem hexEncodeBody_eq (inside : s.i.toNat < 65536) (room : (s.out + 1).toNat < 131072)
    (next : (s.out + 1).toNat = s.out.toNat + 1) :
    hexEncodeBody data s = some ⟨s.i + 1, s.out + 1 + 1, ⟨Function.update
      (Function.update s.result.bytes s.out.toNat (highChar (data.bytes s.i.toNat)))
      (s.out.toNat + 1) (lowChar (data.bytes s.i.toNat))⟩⟩ := by
  have room' : s.out.toNat < 131072 := by omega
  simp only [hexEncodeBody, load_byte inside, Option.bind_eq_bind, Option.bind_some,
    signExtend_and_255,
    Allocation.store_byte room', Allocation.store_byte room, next]
  rfl

/-- What holds after `i` rounds of the encoder. -/
structure Encoded (data : Allocation 65536) (result : Allocation 131072) (i : Nat)
    (s : HexEncoding) : Prop where
  read : s.i.toNat = i
  written : s.out.toNat = 2 * i
  text : s.result.bytes = Buffer.copy (hexText data.bytes) 0 result.bytes 0 (2 * i)

/-- One step encodes one byte more. -/
theorem Encoded.step (encoded : Encoded data result i s) (inside : i < 65536) :
    ∃ s', hexEncodeBody data s = some s' ∧ Encoded data result (i + 1) s' := by
  have read := encoded.read
  have written := encoded.written
  have next : (s.out + 1).toNat = s.out.toNat + 1 := by bv_omega
  refine ⟨_, hexEncodeBody_eq (by omega) (by omega) next, by bv_omega, by bv_omega, ?_⟩
  have half : (2 * i + 1) / 2 = i := by omega
  rw [show 2 * (i + 1) = 2 * i + 1 + 1 from rfl, Buffer.copy, Buffer.copy, ← encoded.text,
    written, read]
  simp [hexText, half]

/-- The encoder stores the text and its terminator, where the terminator has room. -/
theorem hexEncode_eq {fuel n : Nat} {len length : Allocation 8} (count : len.bytes.load 0 8 = n)
    (le : n ≤ 65536)
    (enough : n < fuel) : hexEncode fuel data len result length =
      if n < 65536 then some (⟨Function.update (Buffer.copy (hexText data.bytes) 0
        (Function.update result.bytes 0 0) 0 (2 * n)) (2 * n) 0⟩, ⟨length.bytes.store 0 (2 * n) 8⟩)
      else none := by
  have loaded := load_intIn len
  have first : result.store 0 1 0 = some ⟨Function.update result.bytes 0 0⟩ :=
    Allocation.store_byte (by decide)
  have start : Encoded data ⟨Function.update result.bytes 0 0⟩ 0
    ⟨0, 0, ⟨Function.update result.bytes 0 0⟩⟩ :=
    ⟨rfl, rfl, rfl⟩
  obtain ⟨s, ended, encoded⟩ := rounds_upto (fun _ _ now => now.read) (toNat_intIn.trans count)
    (by omega)
    (fun i below s now => now.step (by omega)) start enough
  have written := encoded.written
  simp only [hexEncode, first, loaded, ended, Option.bind_eq_bind, Option.bind_some]
  by_cases room : n < 65536
  · rw [if_pos room, Allocation.store_byte (by omega), Option.bind_some, store_int,
      Option.bind_some, written, encoded.text]
    rfl
  · rw [if_neg room, store_outside (by omega)]
    rfl

end Encoding

section Decoding

variable {text : Allocation 131072} {result : Allocation 65536} {data : Buffer} {i n : Nat}
  {s : HexDecoding}

/-- What holds after the characters of `i` bytes, and after one character more. -/
structure Decoded (data : Buffer) (result : Allocation 65536) (j : Nat) (s : HexDecoding) :
    Prop where
  read : s.i.toNat = j
  written : s.out.toNat = j / 2
  nibble : s.nibcount = if j % 2 = 0 then 0 else 1
  high : j % 2 = 1 → s.curbyte = hexValue (byteReg (highChar (data (j / 2)))) <<< 4
  bytes : s.result.bytes = Buffer.copy data 0 result.bytes 0 (j / 2)

/-- One step decodes two digits more. -/
theorem Decoded.step {j : Nat} (decoded : Decoded data result j s)
    (isText : text.bytes j = hexText data j)
    (inside : j < 131072) : ∃ s', hexDecodeBody text s = some s' ∧
      Decoded data result (j + 1) s' := by
  have read := decoded.read
  have written := decoded.written
  have loaded : text.load 1 s.i = some ((hexText data j).toBitVec.signExtend 64) := by
    rw [load_byte (by omega), read, isText]
  simp only [hexDecodeBody, loaded, Option.bind_eq_bind, Option.bind_some, signExtend_and_255]
  by_cases even : j % 2 = 0
  · have odd' : (j + 1) % 2 = 1 := by omega
    have half : (j + 1) / 2 = j / 2 := by omega
    rw [if_pos (by rw [decoded.nibble, if_pos even])]
    refine ⟨_,
      rfl, by bv_omega, written.trans half.symm, by rw [odd']; rfl, fun _ => ?_, by rw [half]; exact decoded.bytes⟩
    rw [half, hexText, if_pos even]
  · have odd : j % 2 = 1 := by omega
    have even' : (j + 1) % 2 = 0 := by omega
    have half : (j + 1) / 2 = j / 2 + 1 := by omega
    rw [if_neg (by rw [decoded.nibble, if_neg even]; decide), Allocation.store_byte (by omega),
      Option.bind_some]
    refine ⟨_, rfl, by bv_omega, by bv_omega, by rw [even']; rfl, by omega, ?_⟩
    rw [half, Buffer.copy, ← decoded.bytes, written, decoded.high odd, hexText, if_neg even,
      hexValue_chars]
    simp

/-- The decoder finds the bytes a text was made of. -/
theorem hexDecode_eq (data : Buffer) {fuel : Nat} {len length : Allocation 8}
    (count : len.bytes.load 0 8 = 2 * n) (le : n < 65536)
    (enough : 2 * n < fuel) (isText : ∀ j < 2 * n, text.bytes j = hexText data j) :
    hexDecode fuel text len result length = some (⟨Function.update (Buffer.copy data 0
      (Function.update result.bytes 0 0) 0 n) n 0⟩, ⟨length.bytes.store 0 n 8⟩) := by
  have loaded := load_intIn len
  have first : result.store 0 1 0 = some ⟨Function.update result.bytes 0 0⟩ :=
    Allocation.store_byte (by decide)
  have start : Decoded data ⟨Function.update result.bytes 0 0⟩ 0
    ⟨0, 0, 0, 0, ⟨Function.update result.bytes 0 0⟩⟩ :=
    ⟨rfl, rfl, rfl, fun odd => absurd odd (by decide), rfl⟩
  obtain ⟨s, ended, decoded⟩ := rounds_upto (fun _ _ now => now.read) (toNat_intIn.trans count)
    (by omega)
    (fun j below s now => now.step (isText j below) (by omega)) start enough
  have half : 2 * n / 2 = n := by omega
  have written := decoded.written
  simp only [hexDecode, first, loaded, ended, Option.bind_eq_bind, Option.bind_some]
  rw [Allocation.store_byte (by omega), Option.bind_some, store_int, Option.bind_some,
    written, decoded.bytes, half]
  rfl

end Decoding

section RoundTrip

/-- Both runs end, and the second returns the bytes that the first was given. -/
def HexRoundTrips (fuel : Nat) (data : Allocation 65536) (len : Allocation 8)
    (text : Allocation 131072)
    (textLength : Allocation 8) (result : Allocation 65536) (length : Allocation 8) : Prop :=
  ∃ text' textLength', hexEncode fuel data len text textLength = some (text', textLength') ∧
    ∃ result' length', hexDecode fuel text' textLength' result length = some (result', length') ∧
      length'.bytes.load 0 8 = len.bytes.load 0 8 ∧
      result'.bytes.bytes 0 (len.bytes.load 0 8) = data.bytes.bytes 0 (len.bytes.load 0 8)

/-- The round trip succeeds exactly where the buffers have room for the terminators. -/
theorem hexRoundTrips_iff {fuel : Nat} {data : Allocation 65536} {len : Allocation 8}
    {text : Allocation 131072}
    {textLength : Allocation 8} {result : Allocation 65536} {length : Allocation 8}
    (fits : len.bytes.load 0 8 ≤ 65536) (enough : 131072 < fuel) :
    HexRoundTrips fuel data len text textLength result length ↔ len.bytes.load 0 8 < 65536 := by
  unfold HexRoundTrips
  obtain ⟨n, count⟩ : ∃ n, len.bytes.load 0 8 = n := ⟨_, rfl⟩
  rw [count] at fits ⊢
  rw [hexEncode_eq count fits (by omega)]
  constructor
  · rintro ⟨text', textLength', encoded, -⟩
    by_contra full
    rw [if_neg full] at encoded
    cases encoded
  · intro room
    rw [if_pos room]
    refine ⟨_, _, rfl, _, _, hexDecode_eq data.bytes (Buffer.load_store (by omega)) room
      (by omega) ?_, ?_, ?_⟩
    · intro j below
      refine (Function.update_of_ne (by omega) _ _).trans ?_
      have copied := @Buffer.copy_at (Function.update text.bytes 0 0) (hexText data.bytes) 0 0
        (2 * n) j below
      simpa using copied
    · exact Buffer.load_store (by omega)
    · refine Buffer.bytes_eq_iff.mpr fun i below => ?_
      exact (Function.update_of_ne (by omega) _ _).trans (Buffer.copy_at below)

/-- Three bytes. -/
theorem hexRoundTrips_iff_short :
    HexRoundTrips 200000 ⟨fun i => UInt8.ofNat (200 + i)⟩ (intOf 3) ⟨fun _ => 1⟩ (intOf 0)
      ⟨fun _ => 1⟩ (intOf 0) ↔
      (intOf 3).bytes.load 0 8 < 65536 :=
  hexRoundTrips_iff ((load_intOf (by decide)).trans_le (by decide)) (by decide)

/-- The terminator of the longest text lies behind the buffer. -/
theorem hexEncode_full : ¬ ∃ fuel > 131072,
    HexRoundTrips fuel ⟨fun _ => 0⟩ (intOf 65536) ⟨fun _ => 0⟩ (intOf 0) ⟨fun _ => 0⟩
      (intOf 0) := by
  rintro ⟨fuel, enough, _, _, encoded, -⟩
  have aborted : hexEncode fuel ⟨fun _ => 0⟩ (intOf 65536) ⟨fun _ => 0⟩ (intOf 0) = none := by
    rw [hexEncode_eq (load_intOf (by decide)) (Nat.le_refl 65536) (by omega), if_neg (by decide)]
  rw [aborted] at encoded
  cases encoded

end RoundTrip

end Sigil.Stdlib
