import Sigil.Stdlib.MapTable

/-!
# The slots of a map buffer

What a map buffer says of each slot, and how the behaviors change it: they search the slots as
a table with linear probing is searched, and write to one slot each.
-/

namespace Sigil.Stdlib

open Flow

variable {map map' key val b : Buffer} {cap kl klen vl vlen slot s t off : Nat}

/-- The key in a slot. -/
def slotKey (map : Buffer) (slot : Nat) : List UInt8 :=
  map.bytes (slotOffset slot + 9) (map.load (slotOffset slot + 1) 8)

/-- The value in a slot. -/
def slotValue (map : Buffer) (slot : Nat) : List UInt8 :=
  map.bytes (slotOffset slot + 81) (map.load (slotOffset slot + 73) 8)

/-- A slot by its `used` byte. -/
def cell (map : Buffer) (slot : Nat) : Cell (List UInt8) (List UInt8) :=
  if map (slotOffset slot) = 0 then .empty
  else if map (slotOffset slot) = 2 then .dead (slotKey map slot)
  else .live (slotKey map slot) (slotValue map slot)

/-- The home of a key by its bytes. -/
def home (cap : Nat) (key : List UInt8) : Nat := homeSlot (fun i => key.getD i 0) key.length cap

/-- The hash is one of the bytes of the key. -/
theorem hash_congr (same : ∀ i < kl, key i = b i) : hash key kl = hash b kl := by
  induction kl with
  | zero => rfl
  | succ kl ih =>
      rw [hash, hash, ih fun i below => same i (Nat.lt_succ_of_lt below),
        same kl (Nat.lt_succ_self kl)]

/-- The home depends on the bytes of the key only. -/
theorem homeSlot_eq : homeSlot key kl cap = home cap (key.bytes 0 kl) := by
  have same : ∀ i < kl, key i = (key.bytes 0 kl).getD i 0 := fun i below => by
    simp [Buffer.bytes, below]
  rw [home, Buffer.length_bytes, homeSlot, homeSlot, hash_congr same]

/-- A key is at home in the table. -/
theorem home_lt (positive : 0 < cap) (key : List UInt8) : home cap key < cap :=
    Nat.mod_lt _ positive

/-- The keys match when their bytes do. -/
theorem keyMatches_iff : keyMatches map key kl slot = true ↔ slotKey map slot = key.bytes 0 kl := by
  unfold keyMatches slotKey
  rw [Bool.and_eq_true, beq_iff_eq, Buffer.same_iff]
  constructor
  · rintro ⟨length, bytes⟩
    rw [length, bytes]
  · intro same
    have length := congrArg List.length same
    rw [Buffer.length_bytes, Buffer.length_bytes] at length
    rw [length] at same
    exact ⟨length, same.symm⟩

/-- What a live slot has. -/
theorem of_live {k v : List UInt8} (entry : cell map s = .live k v) :
    map (slotOffset s) ≠ 0 ∧ slotKey map s = k ∧ slotValue map s = v := by
  unfold cell at entry
  split at entry
  · cases entry
  next used =>
    split at entry
    · cases entry
    · obtain ⟨key, value⟩ := Cell.live.inj entry
      exact ⟨used, key, value⟩

/-- A key is at home in the table. -/
theorem homeSlot_lt (positive : 0 < cap) : homeSlot key kl cap < cap := Nat.mod_lt _ positive

/-- An insertion stops inside the table. -/
theorem putStop_probe {tries slot : Nat} (inside : s < cap)
    (placed : probe cap (putStop map key kl) tries s = some slot) :
    slot < cap := by
  obtain ⟨i, -, stopped, -⟩ := (probe_eq_some_iff inside).mp placed
  unfold putStop at stopped
  split_ifs at stopped <;> exact Option.some.inj stopped ▸ Nat.mod_lt _ (Nat.zero_lt_of_lt inside)

/-- A lookup finds a slot in use inside the table. -/
theorem lookupSlot_inside (positive : 0 < capacity map) {slot : Nat}
    (found : lookupSlot map key kl = some slot) :
    slot < capacity map ∧ map (slotOffset slot) ≠ 0 := by
  obtain ⟨i, -, stopped, -⟩ := (probe_eq_some_iff (homeSlot_lt positive)).mp
    (Option.join_eq_some_iff.mp found)
  unfold getStop at stopped
  split_ifs at stopped with empty
  · cases stopped
  obtain rfl := Option.some.inj (Option.some.inj stopped)
  exact ⟨Nat.mod_lt _ positive, empty⟩

/-- `map-put` stops where the cells place the key. -/
theorem putStop_eq : putStop map key kl = Cell.place (cell map) (key.bytes 0 kl) := by
  ext1 slot
  unfold putStop Cell.place cell
  have matched : keyMatches map key kl slot = true ↔ slotKey map slot = key.bytes 0 kl :=
    keyMatches_iff
  by_cases empty : map (slotOffset slot) = 0
  · simp [empty]
  · by_cases dead : map (slotOffset slot) = 2
    · simp [dead, matched]
    · simp [empty, dead, matched]

/-- `map-get` stops where the cells find the key. -/
theorem getStop_eq : getStop map key kl = Cell.find (cell map) (key.bytes 0 kl) := by
  ext1 slot
  unfold getStop Cell.find cell
  have matched : keyMatches map key kl slot = true ↔ slotKey map slot = key.bytes 0 kl :=
    keyMatches_iff
  by_cases empty : map (slotOffset slot) = 0
  · simp [empty]
  · by_cases dead : map (slotOffset slot) = 2
    · simp [dead]
    · simp [empty, dead, matched]

/-- Every slot in use has a key and a value of a length that fits. -/
def Fitting (cap : Nat) (map : Buffer) : Prop :=
  ∀ s < cap, map (slotOffset s) ≠ 0 →
    map.load (slotOffset s + 1) 8 ≤ 64 ∧ map.load (slotOffset s + 73) 8 ≤ 256

/-- Two buffers agree outside of one slot. -/
def AgreeOff (slot : Nat) (map map' : Buffer) : Prop :=
  ∀ a, a < slotOffset slot ∨ slotOffset slot + 337 ≤ a → map' a = map a

/-- Slots do not overlap. -/
theorem slots_apart (other : t ≠ slot) : slotOffset t + 337 ≤ slotOffset slot ∨
    slotOffset slot + 337 ≤ slotOffset t := by
  unfold slotOffset
  omega

/-- A slot is behind the capacity. -/
theorem AgreeOff.capacity (agree : AgreeOff slot map map') : capacity map' = capacity map :=
  Buffer.load_congr fun i below => agree _ (.inl (by unfold slotOffset; omega))

/-- The bytes of another slot. -/
theorem AgreeOff.byte (agree : AgreeOff slot map map') (other : t ≠ slot) {i : Nat}
    (inside : i < 337) :
    map' (slotOffset t + i) = map (slotOffset t + i) := by
  have := slots_apart other
  exact agree _ (by omega)

/-- The flags of the other slots are the same. -/
theorem AgreeOff.used (agree : AgreeOff slot map map') (other : t ≠ slot) :
    map' (slotOffset t) = map (slotOffset t) :=
  agree.byte other (i := 0) (by omega)

/-- The lengths in the other slots are the same. -/
theorem AgreeOff.lengths (agree : AgreeOff slot map map') (other : t ≠ slot) :
    map'.load (slotOffset t + 1) 8 = map.load (slotOffset t + 1) 8 ∧
      map'.load (slotOffset t + 73) 8 = map.load (slotOffset t + 73) 8 := by
  refine ⟨Buffer.load_congr fun i below => ?_, Buffer.load_congr fun i below => ?_⟩
  all_goals
    rw [Nat.add_assoc]
    exact agree.byte other (by omega)

/-- The other slots are as they were. -/
theorem AgreeOff.cell (agree : AgreeOff slot map map') (fitting : Fitting cap map)
    (inside : t < cap)
    (other : t ≠ slot) : cell map' t = cell map t := by
  have used := agree.used other
  obtain ⟨klen, vlen⟩ := agree.lengths other
  unfold Stdlib.cell
  by_cases empty : map (slotOffset t) = 0
  · simp [used, empty]
  · obtain ⟨short, small⟩ := fitting t inside empty
    have key : slotKey map' t = slotKey map t := by
      unfold slotKey
      rw [klen]
      refine Buffer.bytes_congr fun i below => ?_
      rw [Nat.add_assoc]
      exact agree.byte other (by omega)
    have value : slotValue map' t = slotValue map t := by
      unfold slotValue
      rw [vlen]
      refine Buffer.bytes_congr fun i below => ?_
      rw [Nat.add_assoc]
      exact agree.byte other (by omega)
    rw [used, key, value]

/-- The entries fit their slots if the changed one does. -/
theorem AgreeOff.fitting (agree : AgreeOff slot map map') (fitting : Fitting cap map)
    (own : map' (slotOffset slot) ≠ 0 →
      map'.load (slotOffset slot + 1) 8 ≤ 64 ∧ map'.load (slotOffset slot + 73) 8 ≤ 256) :
    Fitting cap map' := by
  intro t inside used
  by_cases other : t = slot
  · subst other
    exact own used
  · obtain ⟨klen, vlen⟩ := agree.lengths other
    rw [agree.used other] at used
    rw [klen, vlen]
    exact fitting t inside used

/-- The cells of a buffer after a change of one slot. -/
theorem AgreeOff.update (agree : AgreeOff slot map map') (fitting : Fitting cap map)
    {c : Cell (List UInt8) (List UInt8)} (own : Stdlib.cell map' slot = c) (inside : t < cap) :
    Stdlib.cell map' t = Function.update (Stdlib.cell map) slot c t := by
  by_cases other : t = slot
  · subst other
    rw [own, Function.update_self]
  · rw [Function.update_of_ne other, agree.cell fitting inside other]

/-- An insertion changes one slot. -/
theorem insertAt_agreeOff (short : kl ≤ 64) (small : vl ≤ 256) :
    AgreeOff slot map (insertAt map key kl val vl slot) := by
  intro a outside
  unfold insertAt
  rw [Buffer.copy_of_outside (by omega), Buffer.store_of_outside (by omega),
    Buffer.copy_of_outside (by omega), Buffer.store_of_outside (by omega),
    Function.update_of_ne (by omega)]

/-- The slot is in use. -/
theorem insertAt_used : insertAt map key kl val vl slot (slotOffset slot) = 1 := by
  unfold insertAt
  rw [Buffer.copy_of_outside (by omega), Buffer.store_of_outside (by omega),
    Buffer.copy_of_outside (by omega), Buffer.store_of_outside (by omega), Function.update_self]

/-- The slot has the length of the key. -/
theorem insertAt_klen (short : kl ≤ 64) :
    (insertAt map key kl val vl slot).load (slotOffset slot + 1) 8 = kl := by
  unfold insertAt
  rw [Buffer.load_copy_of_outside (by omega), Buffer.load_store_of_outside (by omega),
    Buffer.load_copy_of_outside (by omega), Buffer.load_store (by omega)]

/-- The slot has the length of the value. -/
theorem insertAt_vlen (small : vl ≤ 256) :
    (insertAt map key kl val vl slot).load (slotOffset slot + 73) 8 = vl := by
  unfold insertAt
  rw [Buffer.load_copy_of_outside (by omega), Buffer.load_store (by omega)]

/-- The slot that an insertion writes. -/
theorem cell_insertAt (short : kl ≤ 64) (small : vl ≤ 256) :
    cell (insertAt map key kl val vl slot) slot =
    .live (key.bytes 0 kl) (val.bytes 0 vl) := by
  have stored : slotKey (insertAt map key kl val vl slot) slot = key.bytes 0 kl := by
    rw [slotKey, insertAt_klen short]
    unfold insertAt
    rw [Buffer.bytes_copy_of_outside (by omega), Buffer.bytes_store_of_outside (by omega),
      Buffer.bytes_copy]
  have value : slotValue (insertAt map key kl val vl slot) slot = val.bytes 0 vl := by
    rw [slotValue, insertAt_vlen small]
    unfold insertAt
    rw [Buffer.bytes_copy]
  rw [cell, insertAt_used, stored, value]
  rfl

/-- Marking a slot leaves its key and its lengths. -/
theorem marked (slot : Nat) (map : Buffer) {map' : Buffer}
    (mark : map' = Function.update map (slotOffset slot) 2) :
    AgreeOff slot map map' ∧ cell map' slot = .dead (slotKey map slot) ∧
      map'.load (slotOffset slot + 1) 8 = map.load (slotOffset slot + 1) 8 ∧
      map'.load (slotOffset slot + 73) 8 = map.load (slotOffset slot + 73) 8 := by
  subst mark
  have elsewhere : ∀ a, a ≠ slotOffset slot → Function.update map (slotOffset slot) 2 a = map a :=
    fun a other => Function.update_of_ne other _ _
  have klen : Buffer.load (Function.update map (slotOffset slot) 2) (slotOffset slot + 1) 8 =
      map.load (slotOffset slot + 1) 8 := Buffer.load_update_of_outside (by omega)
  have key : slotKey (Function.update map (slotOffset slot) 2) slot = slotKey map slot := by
    unfold slotKey
    rw [klen]
    exact Buffer.bytes_congr fun i _ => elsewhere _ (by omega)
  refine ⟨fun a outside => elsewhere a (by omega), ?_, klen,
    Buffer.load_update_of_outside (by omega)⟩
  rw [cell, key, Function.update_self]
  rfl

end Sigil.Stdlib
