import Sigil.Stdlib.Matching

/-!
# The hash map behaviors

`map-init`, `map-put`, `map-get`, `map-has` and `map-delete`: an open-addressing table in a
buffer of the caller, which the behaviors take to be 262144 bytes. Every access is checked
against the size of its buffer, and offsets, counts and the hash wrap around.
-/

namespace Sigil.Stdlib

open Flow

/-- `IMOD`, where it has a value. -/
def imod (x y : Register) : Option Register :=
  if y = 0 ∨ x = BitVec.intMin 64 ∧ y = -1 then none else some (x.srem y)

/-- The offset of a slot. -/
def slotPlace (slot : Register) : Register :=
  let e := slot * 337
  e + 8

/-- `loop` and `body` of `map-init` -/
def clearBody (cv : Register) (s : Register × Allocation 262144) :
    Option (Register × Allocation 262144 ⊕ Allocation 262144) := do
  if ige s.1 cv then return .inr s.2
  let map ← s.2.store 0 1 (slotPlace s.1)
  return .inl (s.1 + 1, map)

/-- `map-init` -/
def mapInit (fuel : Nat) (map : Allocation 262144) (cap : Allocation 8) :
    Option (Allocation 262144) := do
  let cv ← cap.load 8 0
  let map ← map.store cv 8 0
  exits (clearBody cv) fuel (0, map)

/-- `hloop` and `hbody`: the hash so far, and the place in the key -/
def hashBody (key : Allocation 65536) (kl : Register) (s : Register × Register) :
    Option (Register × Register ⊕ Register) := do
  if ige s.2 kl then return .inr s.1
  let b ← key.load 1 s.2
  let bu := b &&& 255
  let h := s.1 ^^^ bu
  let h := h * 1099511628211
  return .inl (h, s.2 + 1)

/-- The blocks up to `hfin`: the slot a search begins at. -/
def firstSlot (fuel : Nat) (key : Allocation 65536) (kl cap : Register) : Option Register := do
  let h ← exits (hashBody key kl) fuel (BitVec.ofInt 64 (-3750763034362895725), 0)
  let hp := h &&& 9223372036854775807
  imod hp cap

/-- `cloop` to `cnext`, left with `match` -/
def keyBody (map : Allocation 262144) (key : Allocation 65536) (kl kbase j : Register) :
    Option (Register ⊕ Bool) := do
  if ige j kl then return .inr true
  let ka ← key.load 1 j
  let ka := ka &&& 255
  let kboff := kbase + j
  let kb ← map.load 1 kboff
  let kb := kb &&& 255
  if ka ≠ kb then return .inr false
  return .inl (j + 1)

/-- `checkkey` to `cdone`: whether a slot has the key -/
def checkKey (fuel : Nat) (map : Allocation 262144) (key : Allocation 65536) (kl soff : Register) :
    Option Bool := do
  let sklen ← map.load 8 (soff + 1)
  if sklen = kl then exits (keyBody map key kl (soff + 9)) fuel 0
  else return false

/-- The state of a search. -/
structure Search where
  slot : Register
  tries : Register

/-- `nextslot` -/
def nextSlot {ε : Type} (cap : Register) (s : Search) : Option (Search ⊕ ε) := do
  let slot ← imod (s.slot + 1) cap
  return .inl ⟨slot, s.tries + 1⟩

/-- `ploop` to `nextslot` of `map-put`, left with the slot to insert at if there is one -/
def putBody (fuel : Nat) (map : Allocation 262144) (key : Allocation 65536) (kl cap : Register)
    (s : Search) :
    Option (Search ⊕ Option Register) := do
  if ige s.tries cap then return .inr none
  let soff := slotPlace s.slot
  let used ← map.load 1 soff
  let used := used &&& 255
  if used = 0 then return .inr (some s.slot)
  if ← checkKey fuel map key kl soff then return .inr (some s.slot)
  nextSlot cap s

/-- `ploop` to `nextslot` of the lookups, left with the offset of the slot if it is found -/
def lookupBody (fuel : Nat) (map : Allocation 262144) (key : Allocation 65536)
    (kl cap : Register) (s : Search) :
    Option (Search ⊕ Option Register) := do
  if ige s.tries cap then return .inr none
  let soff := slotPlace s.slot
  let used ← map.load 1 soff
  let used := used &&& 255
  if used = 0 then return .inr none
  if used = 2 then nextSlot cap s
  else if ← checkKey fuel map key kl soff then return .inr (some soff)
  else nextSlot cap s

/-- The blocks of the lookups up to `nextslot`. -/
def lookupKey (fuel : Nat) (map : Allocation 262144) (key : Allocation 65536) (kl cap : Register) :
    Option (Option Register) := do
  let slot ← firstSlot fuel key kl cap
  exits (lookupBody fuel map key kl cap) fuel ⟨slot, 0⟩

/-- `insert` to `vcdone` of `map-put` -/
def insertEntry (fuel : Nat) (map : Allocation 262144) (key : Allocation 65536) (kl : Register)
    (val : Allocation 65536) (vl slot : Register) : Option (Allocation 262144) := do
  let soff2 := slotPlace slot
  let map ← map.store 1 1 soff2
  let map ← map.store kl 8 (soff2 + 1)
  let map ← exits (maskedCopyBody key 0 kl (soff2 + 9)) fuel (0, map)
  let map ← map.store vl 8 (soff2 + 73)
  exits (maskedCopyBody val 0 vl (soff2 + 81)) fuel (0, map)

/-- `map-put` -/
def mapPut (fuel : Nat) (map : Allocation 262144) (key : Allocation 65536) (klen : Allocation 8)
    (val : Allocation 65536) (vlen status : Allocation 8) :
      Option (Allocation 262144 × Allocation 8) := do
  let cap ← map.load 8 0
  let kl ← klen.load 8 0
  let vl ← vlen.load 8 0
  let slot ← firstSlot fuel key kl cap
  match ← exits (putBody fuel map key kl cap) fuel ⟨slot, 0⟩ with
  | some slot =>
      let map ← insertEntry fuel map key kl val vl slot
      let status ← status.store 1 8 0
      return (map, status)
  | none =>
      let status ← status.store 0 8 0
      return (map, status)

/-- The outputs of `map-get`. -/
structure Fetched where
  val : Allocation 256
  vlen : Allocation 8
  found : Allocation 8

/-- `map-get` -/
def mapGet (fuel : Nat) (map : Allocation 262144) (key : Allocation 65536) (klen : Allocation 8)
    (val : Allocation 256) (vlen found : Allocation 8) : Option Fetched := do
  let cap ← map.load 8 0
  let kl ← klen.load 8 0
  let found ← found.store 0 8 0
  let vlen ← vlen.store 0 8 0
  let val ← val.store 0 1 0
  match ← lookupKey fuel map key kl cap with
  | some soff =>
      let vl ← map.load 8 (soff + 73)
      let val ← exits (maskedCopyBody map (soff + 81) vl 0) fuel (0, val)
      let vlen ← vlen.store vl 8 0
      let found ← found.store 1 8 0
      return ⟨val, vlen, found⟩
  | none => return ⟨val, vlen, found⟩

/-- `map-has` -/
def mapHas (fuel : Nat) (map : Allocation 262144) (key : Allocation 65536)
    (klen found : Allocation 8) :
    Option (Allocation 8) := do
  let cap ← map.load 8 0
  let kl ← klen.load 8 0
  let found ← found.store 0 8 0
  match ← lookupKey fuel map key kl cap with
  | some _ => found.store 1 8 0
  | none => return found

/-- `map-delete` -/
def mapDelete (fuel : Nat) (map : Allocation 262144) (key : Allocation 65536)
    (klen found : Allocation 8) :
    Option (Allocation 262144 × Allocation 8) := do
  let cap ← map.load 8 0
  let kl ← klen.load 8 0
  let found ← found.store 0 8 0
  match ← lookupKey fuel map key kl cap with
  | some soff =>
      let map ← map.store 2 1 soff
      let found ← found.store 1 8 0
      return (map, found)
  | none => return (map, found)

end Sigil.Stdlib
