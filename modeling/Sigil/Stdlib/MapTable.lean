import Sigil.Flow.Buffer
import Sigil.Flow.Probing

/-!
# Map buffers as tables

What the hash map behaviors leave in a map buffer where none of their accesses is out of
bounds, on unbounded offsets. The capacity is at offset 0; a slot of 337 bytes has the `used`
byte, the key length, 64 bytes for the key, the value length and 256 bytes for the value.
-/

namespace Sigil.Stdlib

open Flow

/-- The capacity of a map buffer. -/
def capacity (map : Buffer) : Nat := map.load 0 8

def slotOffset (slot : Nat) : Nat := slot * 337 + 8

/-- The FNV-1a hash of the first `kl` bytes of a key. -/
def hash (key : Buffer) : Nat → UInt64
  | 0 => UInt64.ofInt (-3750763034362895725)
  | hi + 1 => (hash key hi ^^^ (key hi).toUInt64) * 1099511628211

/-- The slot a search begins at. -/
def homeSlot (key : Buffer) (kl cap : Nat) : Nat := (hash key kl &&& 9223372036854775807).toNat % cap

/-- The slot has a key of the same length and bytes. -/
def keyMatches (map key : Buffer) (kl slot : Nat) : Bool :=
  let soff := slotOffset slot
  map.load (soff + 1) 8 == kl && key.same 0 map (soff + 9) kl

/-- An insertion stops at an empty slot and at one with the key, deleted or not. -/
def putStop (map key : Buffer) (kl slot : Nat) : Option Nat :=
  if map (slotOffset slot) = 0 then some slot
  else if keyMatches map key kl slot then some slot else none

/-- The lookups stop at an empty slot and at one with the key that is not deleted. -/
def getStop (map key : Buffer) (kl slot : Nat) : Option (Option Nat) :=
  if map (slotOffset slot) = 0 then some none
  else if map (slotOffset slot) = 2 then none
  else if keyMatches map key kl slot then some (some slot) else none

/-- The slot of a key that is present. -/
def lookupSlot (map key : Buffer) (kl : Nat) : Option Nat :=
  (probe (capacity map) (getStop map key kl) (capacity map) (homeSlot key kl (capacity map))).join

/-- The `used` bytes of the first slots cleared. -/
def clearSlots (map : Buffer) : Nat → Buffer
  | 0 => map
  | i + 1 => Function.update (clearSlots map i) (slotOffset i) 0

def initTable (map : Buffer) (cap : Nat) : Buffer := clearSlots (map.store 0 cap 8) cap

/-- What an insertion writes to a slot. -/
def insertAt (map key : Buffer) (kl : Nat) (val : Buffer) (vl slot : Nat) : Buffer :=
  let soff := slotOffset slot
  let map : Buffer := Function.update map soff 1
  let map := map.store (soff + 1) kl 8
  let map := key.copy 0 map (soff + 9) kl
  let map := map.store (soff + 73) vl 8
  val.copy 0 map (soff + 81) vl

/-- The map and the status. -/
def putTable (map key : Buffer) (klen : Nat) (val : Buffer) (vlen : Nat) : Buffer × Nat :=
  match probe (capacity map) (putStop map key klen) (capacity map) (homeSlot key klen (capacity map)) with
  | some slot => (insertAt map key klen val vlen slot, 1)
  | none => (map, 0)

/-- What a lookup leaves: the bytes of the value and their number, and whether there is one. -/
structure Got where
  val : Buffer
  vlen : Nat
  found : Nat

def getTable (map key : Buffer) (klen : Nat) (val : Buffer) : Got :=
  let val : Buffer := Function.update val 0 0
  match lookupSlot map key klen with
  | some slot =>
      let vl := map.load (slotOffset slot + 73) 8
      ⟨map.copy (slotOffset slot + 81) val 0 vl, vl, 1⟩
  | none => ⟨val, 0, 0⟩

def hasTable (map key : Buffer) (klen : Nat) : Nat :=
  match lookupSlot map key klen with
  | some _ => 1
  | none => 0

/-- The map, and whether the key was present. -/
def deleteTable (map key : Buffer) (klen : Nat) : Buffer × Nat :=
  match lookupSlot map key klen with
  | some slot => (Function.update map (slotOffset slot) 2, 1)
  | none => (map, 0)

end Sigil.Stdlib
