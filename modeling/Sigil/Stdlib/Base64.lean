import Sigil.Flow.Base64
import Sigil.Stdlib.Registers

/-!
# The Base64 behaviors

`base64-encode` and `base64-decode`, with what their outputs and their tables hold before. Each
loop runs `fuel` rounds at most.
-/

namespace Sigil.Stdlib

open Flow

/-- A LOAD of a byte and the mask behind it. -/
def loadMasked {size : Nat} (a : Allocation size) (off : Register) : Option Register := do
  let b ← a.load 1 off
  return b &&& 255

def fillBody {size : Nat} (value off : Register → Register) (s : Register × Allocation size) :
    Option (Register × Allocation size) := do
  let (k, tbl) := s
  let tbl ← tbl.store (value k) 1 (off k)
  return (k + 1, tbl)

/-- A loop that fills a part of a table, from `k = 0` up to a bound. -/
def fill {size : Nat} (fuel : Nat) (bound : Register) (value off : Register → Register)
    (tbl : Allocation size) :
    Option (Allocation size) := do
  let s ← rounds (fun s => ige s.1 bound) (fillBody value off) fuel (0, tbl)
  return s.2

section Encoder

/-- The registers and the result of the encoding loop. -/
structure Encoding where
  i : Register
  o : Register
  result : Allocation 131072

/-- The table of characters. -/
def buildTable (fuel : Nat) (tbl : Allocation 64) : Option (Allocation 64) := do
  let tbl ← fill fuel 26 (· + 65) (·) tbl
  let tbl ← fill fuel 26 (· + 97) (· + 26) tbl
  let tbl ← fill fuel 10 (· + 48) (· + 52) tbl
  let tbl ← tbl.store 43 1 62
  tbl.store 47 1 63

/-- A byte that is there, or zero. -/
def loadIf (present : Bool) (data : Allocation 65536) (off : Register) : Option Register :=
  if present then loadMasked data off else some 0

/-- A character of the table, or padding. -/
def storeIf (present : Bool) (tbl : Allocation 64) (c : Register) (result : Allocation 131072)
    (o : Register) :
    Option (Allocation 131072) :=
  if present then do
    let e ← tbl.load 1 c
    result.store e 1 o
  else result.store 61 1 o

def encodeBody (data : Allocation 65536) (tbl : Allocation 64) (lenv : Register) (s : Encoding)
    : Option Encoding := do
  let rem := lenv - s.i
  let b0 ← loadMasked data s.i
  let has2 := ige rem 2
  let b1 ← loadIf has2 data (s.i + 1)
  let has3 := ige rem 3
  let b2 ← loadIf has3 data (s.i + 2)
  let c0 := b0 >>> 2
  let t0a := b0 &&& 3
  let t0a := t0a <<< 4
  let t0b := b1 >>> 4
  let c1 := t0a ||| t0b
  let t1a := b1 &&& 15
  let t1a := t1a <<< 2
  let t1b := b2 >>> 6
  let c2 := t1a ||| t1b
  let c3 := b2 &&& 63
  let e0 ← tbl.load 1 c0
  let result ← s.result.store e0 1 s.o
  let e1 ← tbl.load 1 c1
  let result ← result.store e1 1 (s.o + 1)
  let result ← storeIf has2 tbl c2 result (s.o + 2)
  let result ← storeIf has3 tbl c3 result (s.o + 3)
  return ⟨s.i + 3, s.o + 4, result⟩

/-- `base64-encode`: the text and its length. -/
def base64Encode (fuel : Nat) (data : Allocation 65536) (len : Allocation 8) (tbl : Allocation 64)
    (result : Allocation 131072) (length : Allocation 8) :
      Option (Allocation 131072 × Allocation 8) := do
  let lenv ← len.load 8 0
  let tbl ← buildTable fuel tbl
  let s ← rounds (fun s => ile (lenv - s.i) 0) (encodeBody data tbl lenv) fuel ⟨0, 0, result⟩
  let result ← s.result.store 0 1 s.o
  let length ← length.store s.o 8 0
  return (result, length)

end Encoder

section Decoder

/-- The registers and the result of the decoding loop. -/
structure Decoding where
  i : Register
  o : Register
  result : Allocation 98304

/-- The table of values. -/
def buildReverse (fuel : Nat) (rev : Allocation 256) : Option (Allocation 256) := do
  let rev ← fill fuel 256 (fun _ => 0) (·) rev
  let rev ← fill fuel 26 (·) (· + 65) rev
  let rev ← fill fuel 26 (· + 26) (· + 97) rev
  let rev ← fill fuel 10 (· + 52) (· + 48) rev
  let rev ← rev.store 62 1 43
  rev.store 63 1 47

/-- The value of a character, or zero for padding. -/
def valueIf (isPadding : Bool) (rev : Allocation 256) (c : Register) : Option Register :=
  if isPadding then some 0 else loadMasked rev c

def decodeBody (data : Allocation 131072) (rev : Allocation 256) (s : Decoding) :
    Option Decoding := do
  let c0 ← loadMasked data s.i
  let c1 ← loadMasked data (s.i + 1)
  let c2 ← loadMasked data (s.i + 2)
  let c3 ← loadMasked data (s.i + 3)
  let v0 ← loadMasked rev c0
  let v1 ← loadMasked rev c1
  let isp2 := decide (c2 = 61)
  let isp3 := decide (c3 = 61)
  let v2 ← valueIf isp2 rev c2
  let v3 ← valueIf isp3 rev c3
  let byte0 := (v0 <<< 2 ||| v1 >>> 4) &&& 255
  let result ← s.result.store byte0 1 s.o
  let o := s.o + 1
  if isp2 then return ⟨s.i + 4, o, result⟩
  else
    let byte1 := ((v1 &&& 15) <<< 4 ||| v2 >>> 2) &&& 255
    let result ← result.store byte1 1 o
    let o := o + 1
    if isp3 then return ⟨s.i + 4, o, result⟩
    else
      let byte2 := ((v2 &&& 3) <<< 6 ||| v3) &&& 255
      let result ← result.store byte2 1 o
      let o := o + 1
      return ⟨s.i + 4, o, result⟩

/-- `base64-decode`: the bytes and their number. -/
def base64Decode (fuel : Nat) (data : Allocation 131072) (len : Allocation 8) (rev : Allocation 256)
    (result : Allocation 98304) (length : Allocation 8) :
      Option (Allocation 98304 × Allocation 8) := do
  let lenv ← len.load 8 0
  let rev ← buildReverse fuel rev
  let result ← result.store 0 1 0
  let s ← rounds (fun s => ilt (lenv - s.i) 4) (decodeBody data rev) fuel ⟨0, 0, result⟩
  let length ← length.store s.o 8 0
  return (s.result, length)

end Decoder

end Sigil.Stdlib
