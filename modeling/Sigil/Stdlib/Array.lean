import Sigil.Flow.Buffer

/-!
# The integer array behaviors

`array-init`, `array-push`, `array-get`, `array-set`, `array-len` and `array-buf-size`: a
length, a capacity and words of eight bytes in a buffer of the caller, which the behaviors
take to be 65536 bytes. Whatever the caller does with it within its capacity, the array is a
list.
-/

namespace Sigil.Stdlib

open Flow

/-- The word of eight bytes at an offset. -/
def word (b : Buffer) (off : Nat) : BitVec 64 := BitVec.ofNat 64 (b.load off 8)

/-- STORE of a word of eight bytes. -/
def putWord (b : Buffer) (off : Nat) (w : BitVec 64) : Buffer := b.store off w.toNat 8

/-- A word of the buffer at a computed offset. Elsewhere the bounds check aborts, or the
access begins below the buffer. -/
def inBuffer (off : BitVec 64) : Option Nat :=
  if off.toNat + 8 ≤ 65536 then some off.toNat else none

def elementOffset (index : BitVec 64) : BitVec 64 := index * 8 + 16

def arrayBufSize (cap : BitVec 64) : BitVec 64 := cap * 8 + 16

def arrayInit (arr : Buffer) (cap : BitVec 64) : Buffer := putWord (putWord arr 0 0) 8 cap

def arrayLen (arr : Buffer) : BitVec 64 := word arr 0

def arrayGet (arr : Buffer) (index : BitVec 64) : Option (BitVec 64) :=
  (inBuffer (elementOffset index)).map fun off => word arr off

def arraySet (arr : Buffer) (index value : BitVec 64) : Option Buffer :=
  (inBuffer (elementOffset index)).map fun off => putWord arr off value

/-- The array and the status. The length is compared with its sign. -/
def arrayPush (arr : Buffer) (value : BitVec 64) : Option (Buffer × BitVec 64) :=
  let len := word arr 0
  let cap := word arr 8
  if cap.sle len then some (arr, 0)
  else (inBuffer (elementOffset len)).map fun off =>
    (putWord (putWord arr off value) 0 (len + 1), 1)

/-- A call on an array buffer. -/
inductive ArrayCall where
  | push (value : BitVec 64)
  | get (index : BitVec 64)
  | set (index value : BitVec 64)
  | len

/-- What a call on an array gives back. -/
inductive ArrayResult where
  | status (status : BitVec 64)
  | value (value : BitVec 64)
  | length (length : BitVec 64)
  | none
  deriving DecidableEq

namespace ArrayCall

/-- What a call does to the buffer, and what it returns. -/
def run (arr : Buffer) : ArrayCall → Option (Buffer × ArrayResult)
  | push value => (arrayPush arr value).map fun p => (p.1, .status p.2)
  | get index => (arrayGet arr index).map fun value => (arr, .value value)
  | set index value => (arraySet arr index value).map fun arr => (arr, .none)
  | len => some (arr, .length (arrayLen arr))

/-- What a call does to a list with room for `cap` elements; reads and writes are inside
it. -/
def spec (cap : Nat) (l : List (BitVec 64)) : ArrayCall → Option (List (BitVec 64) × ArrayResult)
  | push value => if l.length < cap then some (l ++ [value], .status 1) else some (l, .status 0)
  | get index => l[index.toNat]?.map fun value => (l, .value value)
  | set index value =>
      if index.toNat < l.length then some (l.set index.toNat value, .none) else Option.none
  | len => some (l, .length (BitVec.ofNat 64 l.length))

/-- Calls one after the other, with their results. -/
def runAll {σ : Type} (step : σ → ArrayCall → Option (σ × ArrayResult)) :
    σ → List ArrayCall → Option (σ × List ArrayResult)
  | s, [] => some (s, [])
  | s, c :: calls => (step s c).bind fun p =>
      (runAll step p.1 calls).map fun q => (q.1, p.2 :: q.2)

end ArrayCall

section Words

variable {b : Buffer} {off s : Nat} {w : BitVec 64}

/-- A word put is the word there. -/
theorem word_putWord : word (putWord b off w) off = w := by
  rw [word, putWord, Buffer.load_store (by have := w.isLt; omega)]
  exact (BitVec.ofNat_toNat 64 w).trans (BitVec.setWidth_eq w)

/-- A word put leaves the words beside it. -/
theorem word_putWord_of_outside (outside : s + 8 ≤ off ∨ off + 8 ≤ s) :
    word (putWord b off w) s = word b s :=
  congrArg (BitVec.ofNat 64) (Buffer.load_store_of_outside outside)

/-- The offset of an element that fits into the buffer. -/
theorem inBuffer_elementOffset {i cap : Nat} {index : BitVec 64} (bound : 16 + 8 * cap ≤ 65536)
    (below : i < cap) (here : index.toNat = i) :
    inBuffer (elementOffset index) = some (16 + 8 * i) := by
  have offset : (elementOffset index).toNat = 16 + 8 * i := by
    rw [elementOffset, BitVec.toNat_add, BitVec.toNat_mul, here,
      show (8 : BitVec 64).toNat = 8 from rfl, show (16 : BitVec 64).toNat = 16 from rfl]
    omega
  rw [inBuffer, offset, if_pos (by omega)]

end Words

/-- A buffer holds a list, and beyond the room for `cap` elements is as it was. -/
structure Represents (cap : Nat) (buffer arr : Buffer) (l : List (BitVec 64)) : Prop where
  length : word arr 0 = BitVec.ofNat 64 l.length
  capacity : word arr 8 = BitVec.ofNat 64 cap
  fits : l.length ≤ cap
  elements : ∀ i value, l[i]? = some value → word arr (16 + 8 * i) = value
  beyond : ∀ a, 16 + 8 * cap ≤ a → arr a = buffer a

namespace Represents

variable {cap : Nat} {buffer arr : Buffer} {l : List (BitVec 64)} {value index : BitVec 64}

/-- A new array is empty. -/
theorem init (buffer : Buffer) (cap : Nat) :
    Represents cap buffer (arrayInit buffer (BitVec.ofNat 64 cap)) [] where
  length := by
    rw [arrayInit, word_putWord_of_outside (by omega), word_putWord]
    rfl
  capacity := word_putWord
  fits := Nat.zero_le cap
  elements i value found := by simp at found
  beyond a above := by
    rw [arrayInit, putWord, Buffer.store_of_outside (by omega), putWord,
      Buffer.store_of_outside (by omega)]

/-- A word put where an element is. -/
theorem put (represents : Represents cap buffer arr l) {i : Nat} (below : i < l.length) :
    Represents cap buffer (putWord arr (16 + 8 * i) value) (l.set i value) where
  length := by rw [word_putWord_of_outside (by omega), List.length_set, represents.length]
  capacity := by rw [word_putWord_of_outside (by omega), represents.capacity]
  fits := by rw [List.length_set]; exact represents.fits
  elements j other found := by
    by_cases here : i = j
    · subst here
      rw [List.getElem?_set_self below] at found
      rw [word_putWord, Option.some.inj found]
    · rw [List.getElem?_set_ne here] at found
      rw [word_putWord_of_outside (by omega)]
      exact represents.elements j other found
  beyond a above := by
    have fits := represents.fits
    rw [putWord, Buffer.store_of_outside (by omega)]
    exact represents.beyond a above

/-- A word put behind the last element, and the new length. -/
theorem append (represents : Represents cap buffer arr l) (room : l.length < cap) :
    Represents cap buffer (putWord (putWord arr (16 + 8 * l.length) value) 0
      (BitVec.ofNat 64 (l.length + 1))) (l ++ [value]) where
  length := by rw [word_putWord, List.length_append, List.length_singleton]
  capacity := by
    rw [word_putWord_of_outside (by omega), word_putWord_of_outside (by omega), represents.capacity]
  fits := by rw [List.length_append, List.length_singleton]; exact room
  elements i other found := by
    rw [word_putWord_of_outside (by omega)]
    by_cases last : i = l.length
    · subst last
      rw [List.getElem?_concat_length] at found
      rw [word_putWord, Option.some.inj found]
    · have below : i < l.length := by
        have := (List.getElem?_eq_some_iff.mp found).1
        rw [List.length_append, List.length_singleton] at this
        omega
      rw [List.getElem?_append_left below] at found
      rw [word_putWord_of_outside (by omega)]
      exact represents.elements i other found
  beyond a above := by
    rw [putWord, Buffer.store_of_outside (by omega), putWord, Buffer.store_of_outside (by omega)]
    exact represents.beyond a above

/-- Comparing the length with the capacity. -/
theorem full_iff (represents : Represents cap buffer arr l) (bound : 16 + 8 * cap ≤ 65536) :
    (word arr 8).sle (word arr 0) = true ↔ cap ≤ l.length := by
  have fits := represents.fits
  rw [represents.capacity, represents.length, BitVec.sle_eq_decide, decide_eq_true_eq,
    BitVec.toInt_eq_toNat_of_lt (by simp; omega), BitVec.toInt_eq_toNat_of_lt (by simp; omega)]
  simp only [BitVec.toNat_ofNat]
  omega

/-- `array_push` appends within the capacity and refuses beyond it. -/
theorem push (represents : Represents cap buffer arr l) (value : BitVec 64) (bound : 16 + 8 * cap ≤ 65536) :
    (l.length < cap → ∃ arr', arrayPush arr value = some (arr', 1) ∧
      Represents cap buffer arr' (l ++ [value])) ∧
    (¬ l.length < cap → arrayPush arr value = some (arr, 0)) := by
  have fits := represents.fits
  unfold arrayPush
  constructor
  · intro room
    have offset : inBuffer (elementOffset (word arr 0)) = some (16 + 8 * l.length) := by
      refine inBuffer_elementOffset bound room ?_
      rw [represents.length, BitVec.toNat_ofNat, Nat.mod_eq_of_lt (by omega)]
    have next : word arr 0 + 1 = BitVec.ofNat 64 (l.length + 1) := by
      rw [represents.length, BitVec.ofNat_add]
      rfl
    rw [if_neg fun full => absurd ((represents.full_iff bound).mp full) (by omega), offset, next]
    exact ⟨_, rfl, represents.append room⟩
  · intro full
    rw [if_pos ((represents.full_iff bound).mpr (by omega))]

/-- A call does to the buffer what it does to the list. -/
theorem call (represents : Represents cap buffer arr l) (bound : 16 + 8 * cap ≤ 65536)
    {c : ArrayCall} {l' : List (BitVec 64)} {result : ArrayResult}
    (allowed : c.spec cap l = some (l', result)) :
    ∃ arr', c.run arr = some (arr', result) ∧ Represents cap buffer arr' l' := by
  have fits := represents.fits
  cases c with
  | push value =>
      obtain ⟨room, full⟩ := represents.push value bound
      rw [ArrayCall.spec] at allowed
      by_cases short : l.length < cap
      · rw [if_pos short] at allowed
        obtain ⟨rfl, rfl⟩ := Prod.mk.inj (Option.some.inj allowed)
        obtain ⟨arr', pushed, after⟩ := room short
        exact ⟨arr', by rw [ArrayCall.run, pushed]; rfl, after⟩
      · rw [if_neg short] at allowed
        obtain ⟨rfl, rfl⟩ := Prod.mk.inj (Option.some.inj allowed)
        exact ⟨arr, by rw [ArrayCall.run, full short]; rfl, represents⟩
  | get index =>
      obtain ⟨value, found, same⟩ := Option.map_eq_some_iff.mp allowed
      obtain ⟨rfl, rfl⟩ := Prod.mk.inj same
      have below := (List.getElem?_eq_some_iff.mp found).1
      refine ⟨arr, ?_, represents⟩
      rw [ArrayCall.run, arrayGet, inBuffer_elementOffset bound (below.trans_le fits) rfl]
      exact congrArg (fun w => some (arr, ArrayResult.value w)) (represents.elements _ _ found)
  | set index value =>
      rw [ArrayCall.spec] at allowed
      by_cases below : index.toNat < l.length
      · rw [if_pos below] at allowed
        obtain ⟨rfl, rfl⟩ := Prod.mk.inj (Option.some.inj allowed)
        refine ⟨putWord arr (16 + 8 * index.toNat) value, ?_, represents.put below⟩
        rw [ArrayCall.run, arraySet, inBuffer_elementOffset bound (below.trans_le fits) rfl]
        rfl
      · rw [if_neg below] at allowed
        cases allowed
  | len =>
      obtain ⟨rfl, rfl⟩ := Prod.mk.inj (Option.some.inj allowed)
      refine ⟨arr, ?_, represents⟩
      rw [ArrayCall.run, arrayLen, represents.length]

/-- A sequence of calls answers as the list does. -/
theorem calls (represents : Represents cap buffer arr l) (bound : 16 + 8 * cap ≤ 65536)
    {calls : List ArrayCall} {l' : List (BitVec 64)} {results : List ArrayResult}
    (allowed : ArrayCall.runAll (ArrayCall.spec cap) l calls = some (l', results)) :
    ∃ arr', ArrayCall.runAll ArrayCall.run arr calls = some (arr', results) ∧
      Represents cap buffer arr' l' := by
  induction calls generalizing arr l results with
  | nil =>
      obtain ⟨rfl, rfl⟩ := Prod.mk.inj (Option.some.inj allowed)
      exact ⟨arr, rfl, represents⟩
  | cons c calls ih =>
      obtain ⟨⟨l₁, result⟩, here, rest⟩ := Option.bind_eq_some_iff.mp allowed
      obtain ⟨⟨l₂, later⟩, tail, same⟩ := Option.map_eq_some_iff.mp rest
      obtain ⟨rfl, rfl⟩ := Prod.mk.inj same
      obtain ⟨arr₁, ran, after⟩ := represents.call bound here
      obtain ⟨arr₂, ran', last⟩ := ih after tail
      refine ⟨arr₂, ?_, last⟩
      rw [ArrayCall.runAll, ran, Option.bind_some, ran']
      rfl

end Represents

/-- After `array-init` every sequence of calls whose reads and writes are inside the array
does what it does to a list with room for `cap` elements. None of them aborts or touches a
byte from `array-buf-size` on. -/
theorem array_behaves {cap : Nat} (bound : 16 + 8 * cap ≤ 65536) (buffer : Buffer)
    {calls : List ArrayCall} {l : List (BitVec 64)} {results : List ArrayResult}
    (allowed : ArrayCall.runAll (ArrayCall.spec cap) [] calls = some (l, results)) :
    ∃ arr, ArrayCall.runAll ArrayCall.run (arrayInit buffer (BitVec.ofNat 64 cap)) calls =
        some (arr, results) ∧ arrayLen arr = BitVec.ofNat 64 l.length ∧
      (∀ i value, l[i]? = some value → arrayGet arr (BitVec.ofNat 64 i) = some value) ∧
      ∀ a, (arrayBufSize (BitVec.ofNat 64 cap)).toNat ≤ a → arr a = buffer a := by
  obtain ⟨arr, ran, represents⟩ := (Represents.init buffer cap).calls bound allowed
  refine ⟨arr, ran, represents.length, ?_, ?_⟩
  · intro i value found
    have below := (List.getElem?_eq_some_iff.mp found).1.trans_le represents.fits
    rw [arrayGet, inBuffer_elementOffset bound below (by
      rw [BitVec.toNat_ofNat, Nat.mod_eq_of_lt (by omega)])]
    exact congrArg some (represents.elements i value found)
  · intro a above
    have size : (arrayBufSize (BitVec.ofNat 64 cap)).toNat = 16 + 8 * cap := by
      rw [arrayBufSize, BitVec.toNat_add, BitVec.toNat_mul, BitVec.toNat_ofNat,
        show (8 : BitVec 64).toNat = 8 from rfl, show (16 : BitVec 64).toNat = 16 from rfl]
      omega
    exact represents.beyond a (size ▸ above)

/-- Two elements fit, the third does not. -/
def pushThree : List ArrayCall :=
  [.push 7, .push 8, .push 9, .set 0 5, .get 0, .len]

/-- Three pushes onto an array for two values. -/
theorem array_behaves_pushThree :
    ∃ arr, ArrayCall.runAll ArrayCall.run (arrayInit (fun _ => 255) (BitVec.ofNat 64 2)) pushThree =
        some (arr, [.status 1, .status 1, .status 0, .none, .value 5, .length 2]) ∧
      arrayLen arr = BitVec.ofNat 64 [5#64, 8#64].length ∧
      (∀ i value, [5#64, 8#64][i]? = some value → arrayGet arr (BitVec.ofNat 64 i) = some value) ∧
      ∀ a, (arrayBufSize (BitVec.ofNat 64 2)).toNat ≤ a → arr a = 255 :=
  have allowed : ArrayCall.runAll (ArrayCall.spec 2) [] pushThree = some ([5, 8],
      [.status 1, .status 1, .status 0, .none, .value 5, .length 2]) := rfl
  array_behaves (by decide) (fun _ => 255) allowed

end Sigil.Stdlib
