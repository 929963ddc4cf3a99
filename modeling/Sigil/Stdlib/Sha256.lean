import Sigil.Stdlib.Registers
import Sigil.Flow.Sha256

/-!
# The SHA-256 behavior

`sha256` over its scratch buffer: the constants at offset 0, the message schedule at 256, the
padded message at 512. Registers have 64 bits; each loop runs `fuel` rounds at most.
-/

namespace Sigil.Stdlib

open Flow Flow.Sha256

/-- The scratch buffer of `sha256`. -/
abbrev Scratch := Allocation 66560

/-- The mask of 32 bits, `M`. -/
def M : Register := 4294967295

/-- The constants stored from an offset on. -/
def storeConstants : List Register → Register → Scratch → Option Scratch
  | [], _, buf => some buf
  | k :: rest, off, buf => do storeConstants rest (off + 4) (← buf.store k 4 off)

def kConstants : List Register :=
  [1116352408, 1899447441, 3049323471, 3921009573, 961987163, 1508970993, 2453635748, 2870763221,
   3624381080, 310598401, 607225278, 1426881987, 1925078388, 2162078206, 2614888103, 3248222580,
   3835390401, 4022224774, 264347078, 604807628, 770255983, 1249150122, 1555081692, 1996064986,
   2554220882, 2821834349, 2952996808, 3210313671, 3336571891, 3584528711, 113926993, 338241895,
   666307205, 773529912, 1294757372, 1396182291, 1695183700, 1986661051, 2177026350, 2456956037,
   2730485921, 2820302411, 3259730800, 3345764771, 3516065817, 3600352804, 4094571909, 275423344,
   430227734, 506948616, 659060556, 883997877, 958139571, 1322822218, 1537002063, 1747873779,
   1955562222, 2024104815, 2227730452, 2361852424, 2428436474, 2756734187, 3204031479, 3329325298]

def zbody (s : Register × Scratch) : Option (Register × Scratch) := do
  let (z, buf) := s
  let zoff := z + 512
  let buf ← buf.store 0 1 zoff
  let z := z + 1
  return (z, buf)

def zloop (fuel : Nat) (plen : Register) (buf : Scratch) : Option Scratch := do
  let s ← rounds (fun s => ige s.1 plen) zbody fuel (0, buf)
  return s.2

def cpbody (data : Allocation 65536) (s : Register × Scratch) : Option (Register × Scratch) := do
  let (j, buf) := s
  let db ← data.load 1 j
  let db := db &&& 255
  let moff := j + 512
  let buf ← buf.store db 1 moff
  let j := j + 1
  return (j, buf)

def cploop (fuel : Nat) (data : Allocation 65536) (lenv : Register) (buf : Scratch) : Option Scratch := do
  let s ← rounds (fun s => ige s.1 lenv) (cpbody data) fuel (0, buf)
  return s.2

/-- The length in bits at the end of the padded message, the high byte first. -/
def storeLength (lenv plen : Register) (buf : Scratch) : Option Scratch := do
  let bitlen := lenv * 8
  let lbase := plen + 512
  let lbase := lbase - 8
  let buf ← buf.store (bitlen >>> 56 &&& 255) 1 lbase
  let buf ← buf.store (bitlen >>> 48 &&& 255) 1 (lbase + 1)
  let buf ← buf.store (bitlen >>> 40 &&& 255) 1 (lbase + 2)
  let buf ← buf.store (bitlen >>> 32 &&& 255) 1 (lbase + 3)
  let buf ← buf.store (bitlen >>> 24 &&& 255) 1 (lbase + 4)
  let buf ← buf.store (bitlen >>> 16 &&& 255) 1 (lbase + 5)
  let buf ← buf.store (bitlen >>> 8 &&& 255) 1 (lbase + 6)
  buf.store (bitlen &&& 255) 1 (lbase + 7)

def wlbody (mbase : Register) (s : Register × Scratch) : Option (Register × Scratch) := do
  let (t, buf) := s
  let t4 := t * 4
  let bo := mbase + t4
  let c0 ← buf.load 1 bo
  let c0 := c0 &&& 255
  let p0 := c0 <<< 24
  let bo1 := bo + 1
  let c1 ← buf.load 1 bo1
  let c1 := c1 &&& 255
  let p1 := c1 <<< 16
  let bo2 := bo + 2
  let c2 ← buf.load 1 bo2
  let c2 := c2 &&& 255
  let p2 := c2 <<< 8
  let bo3 := bo + 3
  let c3 ← buf.load 1 bo3
  let c3 := c3 &&& 255
  let wv := p0 ||| p1
  let wv := wv ||| p2
  let wv := wv ||| c3
  let woff := t4 + 256
  let buf ← buf.store wv 4 woff
  let t := t + 1
  return (t, buf)

def wload (fuel : Nat) (mbase : Register) (buf : Scratch) : Option Scratch := do
  let s ← rounds (fun s => ige s.1 16) (wlbody mbase) fuel (0, buf)
  return s.2

def webody (s : Register × Scratch) : Option (Register × Scratch) := do
  let (t, buf) := s
  let tm15 := t - 15
  let o15 := tm15 * 4
  let o15 := o15 + 256
  let w15 ← buf.load 4 o15
  let w15 := w15 &&& M
  let tm2 := t - 2
  let o2x := tm2 * 4
  let o2x := o2x + 256
  let w2 ← buf.load 4 o2x
  let w2 := w2 &&& M
  let tm16 := t - 16
  let o16 := tm16 * 4
  let o16 := o16 + 256
  let w16 ← buf.load 4 o16
  let w16 := w16 &&& M
  let tm7 := t - 7
  let o7x := tm7 * 4
  let o7x := o7x + 256
  let w7 ← buf.load 4 o7x
  let w7 := w7 &&& M
  let s0a := (w15 >>> 7 ||| w15 <<< 25) &&& M
  let s0b := (w15 >>> 18 ||| w15 <<< 14) &&& M
  let s0c := w15 >>> 3
  let s0 := s0a ^^^ s0b
  let s0 := s0 ^^^ s0c
  let s1a := (w2 >>> 17 ||| w2 <<< 15) &&& M
  let s1b := (w2 >>> 19 ||| w2 <<< 13) &&& M
  let s1c := w2 >>> 10
  let s1 := s1a ^^^ s1b
  let s1 := s1 ^^^ s1c
  let wt := w16 + s0
  let wt := wt + w7
  let wt := wt + s1
  let wt := wt &&& M
  let t4e := t * 4
  let woffe := t4e + 256
  let buf ← buf.store wt 4 woffe
  let t := t + 1
  return (t, buf)

def wext (fuel : Nat) (buf : Scratch) : Option Scratch := do
  let s ← rounds (fun s => ige s.1 64) webody fuel (16, buf)
  return s.2

def rbody (buf : Scratch) (s : Register × Eight Register) : Option (Register × Eight Register) := do
  let (t, ⟨a, b, c, d, e, f, g, hv⟩) := s
  let kt4 := t * 4
  let kt ← buf.load 4 kt4
  let kt := kt &&& M
  let wo := kt4 + 256
  let wt ← buf.load 4 wo
  let wt := wt &&& M
  let e1 := (e >>> 6 ||| e <<< 26) &&& M
  let e2 := (e >>> 11 ||| e <<< 21) &&& M
  let e3 := (e >>> 25 ||| e <<< 7) &&& M
  let bigS1 := e1 ^^^ e2
  let bigS1 := bigS1 ^^^ e3
  let ne := e ^^^ M
  let ef := e &&& f
  let ng := ne &&& g
  let chh := ef ^^^ ng
  let tt1 := hv + bigS1
  let tt1 := tt1 + chh
  let tt1 := tt1 + kt
  let tt1 := tt1 + wt
  let tt1 := tt1 &&& M
  let a1 := (a >>> 2 ||| a <<< 30) &&& M
  let a2 := (a >>> 13 ||| a <<< 19) &&& M
  let a3 := (a >>> 22 ||| a <<< 10) &&& M
  let bigS0 := a1 ^^^ a2
  let bigS0 := bigS0 ^^^ a3
  let m1 := a &&& b
  let m2 := a &&& c
  let m3 := b &&& c
  let maj := m1 ^^^ m2
  let maj := maj ^^^ m3
  let tt2 := bigS0 + maj
  let tt2 := tt2 &&& M
  let newe := d + tt1
  let newe := newe &&& M
  let newa := tt1 + tt2
  let newa := newa &&& M
  let hv := g + 0
  let g := f + 0
  let f := e + 0
  let e := newe + 0
  let d := c + 0
  let c := b + 0
  let b := a + 0
  let a := newa + 0
  let t := t + 1
  return (t, ⟨a, b, c, d, e, f, g, hv⟩)

def rnd (fuel : Nat) (buf : Scratch) (vars : Eight Register) : Option (Eight Register) := do
  let s ← rounds (fun s => ige s.1 64) (rbody buf) fuel (0, vars)
  return s.2

/-- What a chunk keeps: `ci`, the hash `h0` to `h7` and the buffer. -/
structure Chunk where
  ci : Register
  hash : Eight Register
  buf : Scratch

def chunkbody (fuel : Nat) (s : Chunk) : Option Chunk := do
  let mbase := s.ci + 512
  let buf ← wload fuel mbase s.buf
  let buf ← wext fuel buf
  let vars := s.hash.map (· + 0)
  let vars ← rnd fuel buf vars
  let hash := s.hash.zipWith (fun h x => (h + x) &&& M) vars
  return ⟨s.ci + 64, hash, buf⟩

def chunkloop (fuel : Nat) (plen : Register) (hash : Eight Register) (buf : Scratch) : Option (Eight Register) := do
  let s ← rounds (fun s => ige s.ci plen) (chunkbody fuel) fuel ⟨0, hash, buf⟩
  return s.hash

/-- A word of the hash at an offset of the digest, the high byte first. -/
def storeWord (h off : Register) (digest : Allocation 32) : Option (Allocation 32) := do
  let digest ← digest.store (h >>> 24 &&& 255) 1 off
  let digest ← digest.store (h >>> 16 &&& 255) 1 (off + 1)
  let digest ← digest.store (h >>> 8 &&& 255) 1 (off + 2)
  digest.store (h &&& 255) 1 (off + 3)

/-- The words of the hash stored from an offset on. -/
def storeHash : List Register → Register → Allocation 32 → Option (Allocation 32)
  | [], _, digest => some digest
  | h :: rest, off, digest => do storeHash rest (off + 4) (← storeWord h off digest)

/-- The behavior `sha256`: the digest after it, with what `buf` and `digest` hold before. -/
def sha256 (fuel : Nat) (data : Allocation 65536) (len : Allocation 8) (buf : Scratch)
    (digest : Allocation 32) : Option (Allocation 32) := do
  let lenv ← len.load 8 0
  let buf ← storeConstants kConstants 0 buf
  let t := lenv + 8
  let q := t.sdiv 64
  let blocks := q + 1
  let plen := blocks * 64
  let buf ← zloop fuel plen buf
  let buf ← cploop fuel data lenv buf
  let eoff := lenv + 512
  let buf ← buf.store 128 1 eoff
  let buf ← storeLength lenv plen buf
  let hash := ⟨1779033703, 3144134277, 1013904242, 2773480762, 1359893119, 2600822924, 528734635, 1541459225⟩
  let hash ← chunkloop fuel plen hash buf
  storeHash hash.toList 0 digest

end Sigil.Stdlib
