import Sigil.Stdlib.MapCalls

/-!
# The hash map as a dictionary

Each call on a map buffer does what the same call does to a dictionary, and so does every
sequence of calls after `map-init`.
-/

namespace Sigil.Stdlib

open Flow

variable {map key val buffer : Buffer} {cap kl klen vl vlen slot s n : Nat}
  {d : Dict (List UInt8) (List UInt8)}

/-- A map buffer holds a dictionary. -/
structure Refines (cap : Nat) (map : Buffer) (d : Dict (List UInt8) (List UInt8)) : Prop where
  capacity : capacity map = cap
  fitting : Fitting cap map
  holds : Cell.Holds cap (home cap) (cell map) d

/-- Clearing changes the flags only. -/
theorem clearSlots_of_ne {a : Nat} (other : ∀ i < n, a ≠ slotOffset i) :
    clearSlots map n a = map a := by
  induction n with
  | zero => rfl
  | succ n ih =>
      rw [clearSlots, Function.update_of_ne (other n (Nat.lt_succ_self n))]
      exact ih fun i below => other i (Nat.lt_succ_of_lt below)

/-- No slot is in use behind clearing. -/
theorem clearSlots_used (below : s < n) : clearSlots map n (slotOffset s) = 0 := by
  induction n with
  | zero => exact absurd below (Nat.not_lt_zero s)
  | succ n ih =>
      rw [clearSlots]
      by_cases last : s = n
      · rw [last, Function.update_self]
      · rw [Function.update_of_ne (by unfold slotOffset; omega)]
        exact ih (by omega)

/-- A new map is empty. -/
theorem refines_init (buffer : Buffer) (positive : 1 ≤ cap) (bound : cap ≤ 777) :
    Refines cap (initTable buffer cap) .empty where
  capacity := by
    have header : (initTable buffer cap).load 0 8 = (buffer.store 0 cap 8).load 0 8 :=
      Buffer.load_congr fun i below => clearSlots_of_ne fun j _ => by unfold slotOffset; omega
    exact header.trans (Buffer.load_store (by omega))
  fitting s below used := absurd (clearSlots_used below) used
  holds := Cell.holds_empty (home_lt positive) fun s below => if_pos (clearSlots_used below)

/-- The search of an insertion is that of the table. -/
theorem Refines.search (refines : Refines cap map d) :
    probe (Stdlib.capacity map) (putStop map key kl) (Stdlib.capacity map)
      (homeSlot key kl (Stdlib.capacity map)) =
      probe cap (Cell.place (cell map) (key.bytes 0 kl)) cap (home cap (key.bytes 0 kl)) := by
  rw [refines.capacity, homeSlot_eq, putStop_eq]

/-- A change of one slot that does to the table what is done to the dictionary. -/
theorem Refines.change {map' : Buffer} {d' : Dict (List UInt8) (List UInt8)}
    {c : Cell (List UInt8) (List UInt8)}
    (refines : Refines cap map d) (agree : AgreeOff slot map map')
    (own : cell map' slot = c) (fits : map' (slotOffset slot) ≠ 0 →
      map'.load (slotOffset slot + 1) 8 ≤ 64 ∧ map'.load (slotOffset slot + 73) 8 ≤ 256)
    (holds : Cell.Holds cap (home cap) (Function.update (cell map) slot c) d') :
      Refines cap map' d' where
  capacity := agree.capacity.trans refines.capacity
  fitting := agree.fitting refines.fitting fits
  holds := holds.congr fun _ inside => agree.update refines.fitting own inside

/-- Putting into the table is putting into the dictionary. -/
theorem Refines.put (refines : Refines cap map d) (key val : Buffer) (short : klen ≤ 64)
    (small : vlen ≤ 256) :
    Refines cap (putTable map key klen val vlen).1
      (d.put cap (key.bytes 0 klen) (val.bytes 0 vlen)).1 ∧
      (putTable map key klen val vlen).2 =
        (d.put cap (key.bytes 0 klen) (val.bytes 0 vlen)).2.toNat := by
  unfold putTable Dict.put
  rw [refines.search]
  cases placed : probe cap (Cell.place (cell map) (key.bytes 0 klen)) cap
    (home cap (key.bytes 0 klen)) with
  | some slot =>
      rw [if_pos (refines.holds.room_iff.mpr ⟨slot, placed⟩)]
      refine ⟨refines.change (insertAt_agreeOff short small) (cell_insertAt short small)
        (fun _ => ?_)
        (refines.holds.insert _ placed), rfl⟩
      rw [insertAt_klen short, insertAt_vlen small]
      exact ⟨short, small⟩
  | none =>
      have full : ¬ (key.bytes 0 klen ∈ d.inserted ∨ d.inserted.card < cap) := by
        rw [refines.holds.room_iff, placed]
        simp
      rw [if_neg full]
      exact ⟨refines, rfl⟩

/-- A lookup finds the slot with the value of the key, or the key has none. -/
theorem Refines.lookup (refines : Refines cap map d) (key : Buffer) (kl : Nat) :
    (∃ s v, lookupSlot map key kl = some s ∧ s < cap ∧ cell map s = .live (key.bytes 0 kl) v ∧
      d.find (key.bytes 0 kl) = some v) ∨
    (lookupSlot map key kl = none ∧ d.find (key.bytes 0 kl) = none) := by
  have search : lookupSlot map key kl =
      (probe cap (Cell.find (cell map) (key.bytes 0 kl)) cap (home cap (key.bytes 0 kl))).join := by
    rw [lookupSlot, refines.capacity, homeSlot_eq, getStop_eq]
  rw [search]
  cases found : d.find (key.bytes 0 kl) with
  | some v =>
      obtain ⟨s, stopped, entry⟩ := refines.holds.lookup.mp found
      rw [stopped]
      exact .inl ⟨s, v, rfl, (refines.holds.probed.find_iff.mp stopped).1, entry, rfl⟩
  | none =>
      refine .inr ⟨?_, rfl⟩
      cases stopped : probe cap (Cell.find (cell map) (key.bytes 0 kl)) cap
        (home cap (key.bytes 0 kl)) with
      | none => rfl
      | some slot =>
          cases slot with
          | none => rfl
          | some s =>
              obtain ⟨_, v, entry⟩ := refines.holds.probed.find_iff.mp stopped
              have present := refines.holds.lookup.mpr ⟨s, stopped, entry⟩
              rw [found] at present
              cases present

/-- A lookup copies the value of the key, or finds nothing. -/
theorem Refines.get (refines : Refines cap map d) (key : Buffer) (klen : Nat) (val : Buffer) :
    (∀ v, d.find (key.bytes 0 klen) = some v → (getTable map key klen val).found = 1 ∧
      (getTable map key klen val).val.bytes 0 (getTable map key klen val).vlen = v) ∧
    (d.find (key.bytes 0 klen) = none → (getTable map key klen val).found = 0 ∧
      (getTable map key klen val).vlen = 0) := by
  unfold getTable
  obtain ⟨s, v, found, _, entry, present⟩ | ⟨found, absent⟩ := refines.lookup key klen
  · rw [found, present]
    refine ⟨?_, by simp⟩
    rintro w ⟨⟩
    refine ⟨rfl, ?_⟩
    rw [← (of_live entry).2.2]
    exact Buffer.bytes_copy
  · rw [found, absent]
    exact ⟨by simp, fun _ => ⟨rfl, rfl⟩⟩

/-- The table has what the dictionary has. -/
theorem Refines.has (refines : Refines cap map d) :
    hasTable map key klen = (d.find (key.bytes 0 klen)).isSome.toNat := by
  unfold hasTable
  obtain ⟨s, v, found, _, _, present⟩ | ⟨found, absent⟩ := refines.lookup key klen
  · rw [found, present]
    rfl
  · rw [found, absent]
    rfl

/-- Deleting from the table is erasing from the dictionary. -/
theorem Refines.delete (refines : Refines cap map d) (key : Buffer) (klen : Nat) :
    Refines cap (deleteTable map key klen).1 (d.erase (key.bytes 0 klen)) ∧
      (deleteTable map key klen).2 = (d.find (key.bytes 0 klen)).isSome.toNat := by
  unfold deleteTable
  obtain ⟨s, v, found, below, entry, present⟩ | ⟨found, absent⟩ := refines.lookup key klen
  · rw [found, present]
    obtain ⟨agree, dead, klen, vlen⟩ := marked s map rfl
    obtain ⟨used, own, _⟩ := of_live entry
    refine ⟨refines.change agree (dead.trans (by rw [own])) (fun _ => ?_)
      (refines.holds.erase below entry), rfl⟩
    rw [klen, vlen]
    exact refines.fitting s below used
  · rw [found, Dict.erase_of_none absent, absent]
    exact ⟨refines, rfl⟩

/-- A call on a map buffer, with the caller's buffers. -/
inductive MapCall where
  | put (key : Allocation 65536) (klen : Allocation 8) (val : Allocation 65536)
    (vlen status : Allocation 8)
  | get (key : Allocation 65536) (klen : Allocation 8) (val : Allocation 256)
    (vlen found : Allocation 8)
  | has (key : Allocation 65536) (klen found : Allocation 8)
  | delete (key : Allocation 65536) (klen found : Allocation 8)

/-- What a caller reads from the outputs. -/
inductive MapResult where
  | status (status : Nat)
  | got (found vlen : Nat) (val : List UInt8)
  | found (found : Nat)
  deriving DecidableEq

/-- The bytes of a key or a value. -/
def field (a : Allocation 65536) (len : Allocation 8) : List UInt8 := a.bytes.bytes 0 (number len)

namespace MapCall

/-- The lengths that a slot has room for. -/
def Fits : MapCall → Prop
  | put _ klen _ vlen _ => number klen ≤ 64 ∧ number vlen ≤ 256
  | get _ klen _ _ _ | has _ klen _ | delete _ klen _ => number klen ≤ 64

/-- What a call does to the map buffer, and what it returns. -/
def run (fuel : Nat) (map : Allocation 262144) : MapCall → Option (Allocation 262144 × MapResult)
  | put key klen val vlen status =>
      (mapPut fuel map key klen val vlen status).map fun p => (p.1, .status (number p.2))
  | get key klen val vlen found => (mapGet fuel map key klen val vlen found).map fun got =>
      (map, .got (number got.found) (number got.vlen) (got.val.bytes.bytes 0 (number got.vlen)))
  | has key klen found =>
      (mapHas fuel map key klen found).map fun found => (map, .found (number found))
  | delete key klen found =>
      (mapDelete fuel map key klen found).map fun p => (p.1, .found (number p.2))

/-- What a call does to a dictionary with room for `cap` keys, and what it returns. -/
def spec (cap : Nat) (d : Dict (List UInt8) (List UInt8)) :
    MapCall → Dict (List UInt8) (List UInt8) × MapResult
  | put key klen val vlen _ =>
      let (d', done) := d.put cap (field key klen) (field val vlen)
      (d', .status done.toNat)
  | get key klen _ _ _ =>
      match d.find (field key klen) with
      | some v => (d, .got 1 v.length v)
      | none => (d, .got 0 0 [])
  | has key klen _ => (d, .found (d.find (field key klen)).isSome.toNat)
  | delete key klen _ => (d.erase (field key klen), .found (d.find (field key klen)).isSome.toNat)

end MapCall

/-- Calls one after the other, with their results. -/
def runCalls (fuel : Nat) (map : Allocation 262144) :
    List MapCall → Option (Allocation 262144 × List MapResult)
  | [] => some (map, [])
  | c :: calls =>
      (c.run fuel map).bind fun p => (runCalls fuel p.1 calls).map fun q => (q.1, p.2 :: q.2)

/-- The same calls on a dictionary. -/
def specCalls (cap : Nat) (d : Dict (List UInt8) (List UInt8)) :
    List MapCall → Dict (List UInt8) (List UInt8) × List MapResult
  | [] => (d, [])
  | c :: calls =>
      let (d', result) := c.spec cap d
      let (d'', results) := specCalls cap d' calls
      (d'', result :: results)

section Behaviors

variable {fuel : Nat} {buffer start : Allocation 262144}

/-- A table that refines a dictionary has room. -/
theorem Refines.roomy (refines : Refines cap start.bytes d) (positive : 1 ≤ cap)
    (bound : cap ≤ 777) : Roomy start :=
  ⟨refines.capacity ▸ positive, refines.capacity ▸ bound⟩

/-- A call returns, and does to the map what it does to the dictionary. -/
theorem Refines.call (refines : Refines cap start.bytes d) (positive : 1 ≤ cap)
    (bound : cap ≤ 777) (enough : 777 < fuel)
    {c : MapCall} (fits : c.Fits) :
    ∃ map, c.run fuel start = some (map, (c.spec cap d).2) ∧
      Refines cap map.bytes (c.spec cap d).1 := by
  have roomy := refines.roomy positive bound
  cases c with
  | put key klen val vlen status =>
      obtain ⟨status', ran, value⟩ := mapPut_eq roomy fits.1 fits.2 enough key val status
      obtain ⟨after, done⟩ := refines.put key.bytes val.bytes fits.1 fits.2
      refine ⟨⟨(putTable start.bytes key.bytes (number klen) val.bytes (number vlen)).1⟩, ?_, after⟩
      rw [MapCall.run, ran, Option.map_some, value, done]
      rfl
  | get key klen out vlen found =>
      have fitting : Fitting (Stdlib.capacity start.bytes) start.bytes :=
        refines.capacity.symm ▸ refines.fitting
      obtain ⟨got, ran, value, length, flag⟩ :=
        mapGet_eq roomy fitting fits enough key out vlen found
      obtain ⟨present, absent⟩ := refines.get key.bytes (number klen) out.bytes
      refine ⟨start, ?_, ?_⟩
      · rw [MapCall.run, ran, Option.map_some, value, length, flag, MapCall.spec, field]
        cases looked : d.find (key.bytes.bytes 0 (number klen)) with
        | some v =>
            obtain ⟨one, bytes⟩ := present v looked
            have size := congrArg List.length bytes
            rw [Buffer.length_bytes] at size
            rw [bytes, one, size]
        | none =>
            obtain ⟨zero, none_⟩ := absent looked
            rw [zero, none_]
            rfl
      · rw [MapCall.spec]
        split <;> exact refines
  | has key klen found =>
      obtain ⟨found', ran, value⟩ := mapHas_eq roomy fits enough key found
      refine ⟨start, ?_, refines⟩
      rw [MapCall.run, ran, Option.map_some, value, refines.has]
      rfl
  | delete key klen found =>
      obtain ⟨found', ran, value⟩ := mapDelete_eq roomy fits enough key found
      obtain ⟨after, present⟩ := refines.delete key.bytes (number klen)
      refine ⟨⟨(deleteTable start.bytes key.bytes (number klen)).1⟩, ?_, after⟩
      rw [MapCall.run, ran, Option.map_some, value, present]
      rfl

/-- Every sequence of calls returns, with what it does to the dictionary. -/
theorem Refines.calls (refines : Refines cap start.bytes d) (positive : 1 ≤ cap) (bound : cap ≤ 777)
    (enough : 777 < fuel) {calls : List MapCall} (fits : ∀ c ∈ calls, c.Fits) :
    ∃ map, runCalls fuel start calls = some (map, (specCalls cap d calls).2) ∧
      Refines cap map.bytes (specCalls cap d calls).1 := by
  induction calls generalizing start d with
  | nil => exact ⟨start, rfl, refines⟩
  | cons c calls ih =>
      obtain ⟨here, later⟩ := List.forall_mem_cons.mp fits
      obtain ⟨map, ran, after⟩ := refines.call positive bound enough here
      obtain ⟨last, ran', results⟩ := ih after later
      refine ⟨last, ?_, results⟩
      rw [runCalls, ran, Option.bind_some, ran']
      rfl

end Behaviors

/-- A key that was inserted is in one slot. -/
theorem Refines.one_slot (refines : Refines cap map d) {k : List UInt8}
    (inserted : k ∈ d.inserted) :
    ∃! s, s < cap ∧ (cell map s).key = some k := by
  obtain ⟨s, below, found⟩ := (refines.holds.inserted k).mp inserted
  exact ⟨s, ⟨below, found⟩, fun t ⟨inside, there⟩ =>
    refines.holds.probed.once k t inside s below there found⟩

/-- An insertion that fails leaves the map, has a new key, and finds `cap` others. -/
theorem Refines.put_fails (refines : Refines cap map d)
    (failed : (putTable map key klen val vlen).2 = 0) :
    (putTable map key klen val vlen).1 = map ∧ key.bytes 0 klen ∉ d.inserted ∧ d.inserted.card =
      cap := by
  unfold putTable at failed ⊢
  rw [refines.search] at failed ⊢
  cases placed : probe cap (Cell.place (cell map) (key.bytes 0 klen)) cap
    (home cap (key.bytes 0 klen)) with
  | some slot => simp [placed] at failed
  | none => exact ⟨rfl, refines.holds.full_iff.mp placed⟩

/-- After `map-init` the calls of a map return, and behave as those of a dictionary with room for
as many keys as the map has slots. -/
theorem map_behaves {fuel : Nat} {cap : Allocation 8} (positive : 1 ≤ number cap)
    (bound : number cap ≤ 777)
    (enough : 777 < fuel) (buffer : Allocation 262144) {calls : List MapCall}
      (fits : ∀ c ∈ calls, c.Fits) :
    ∃ start map results d, mapInit fuel buffer cap = some start ∧
      runCalls fuel start calls = some (map, results) ∧ specCalls (number cap) .empty calls =
        (d, results) ∧
      (∀ k ∈ d.inserted, ∃! s, s < number cap ∧ (cell map.bytes s).key = some k) ∧
      ∀ key klen val vlen status, number klen ≤ 64 → number vlen ≤ 256 →
        ∃ map' status', mapPut fuel map key klen val vlen status = some (map', status') ∧
          (number status' = 0 →
            map' = map ∧ field key klen ∉ d.inserted ∧ d.inserted.card = number cap) := by
  have refines := refines_init buffer.bytes positive bound
  obtain ⟨map, ran, after⟩ := @Refines.calls (number cap) _ fuel
    ⟨initTable buffer.bytes (number cap)⟩ refines positive bound
    enough calls fits
  refine ⟨_, map, _, _, mapInit_eq bound enough buffer, ran, rfl, fun k => after.one_slot,
    fun key klen val vlen status short small => ?_⟩
  obtain ⟨status', put, value⟩ := mapPut_eq (after.roomy positive bound) short small enough key
    val status
  refine ⟨_, status', put, fun failed => ?_⟩
  obtain ⟨same, absent, full⟩ := after.put_fails (value.symm.trans failed)
  exact ⟨congrArg Allocation.mk same, absent, full⟩

/-- Two keys in a map with two slots, with a value of each, one of them overwritten, deleted and
put again; a third key finds no room. -/
def putGet : List MapCall :=
  [.put (holding 65536 [3, 4]) (intOf 2) (holding 65536 [7, 8, 9]) (intOf 3) (intOf 5),
    .put (holding 65536 [5]) (intOf 1) (holding 65536 [1]) (intOf 1) (intOf 5),
    .get (holding 65536 [3, 4]) (intOf 2) (holding 256 [6]) (intOf 5) (intOf 5),
    .put (holding 65536 [5]) (intOf 1) (holding 65536 [2, 2]) (intOf 2) (intOf 5),
    .delete (holding 65536 [3, 4]) (intOf 2) (intOf 5),
      .has (holding 65536 [3, 4]) (intOf 2) (intOf 5),
    .get (holding 65536 [5]) (intOf 1) (holding 256 []) (intOf 5) (intOf 5),
    .put (holding 65536 [9]) (intOf 1) (holding 65536 [1]) (intOf 1) (intOf 5)]

/-- The calls of the run fit. -/
theorem fits_putGet : ∀ c ∈ putGet, c.Fits := by
  have one : number (intOf 1) = 1 := load_intOf (by decide)
  have two : number (intOf 2) = 2 := load_intOf (by decide)
  have three : number (intOf 3) = 3 := load_intOf (by decide)
  simp only [putGet, List.forall_mem_cons, MapCall.Fits]
  simp [one, two, three]

/-- Two keys; the value of one is replaced, and the other is deleted. -/
theorem map_behaves_putGet : ∃ start map, mapInit 1000 (holding 262144 [255]) (intOf 2) =
    some start ∧
    runCalls 1000 start putGet = some (map,
      [.status 1, .status 1, .got 1 3 [7, 8, 9], .status 1, .found 1,
      .found 0, .got 1 2 [2, 2], .status 0]) := by
  have two : number (intOf 2) = 2 := load_intOf (by decide)
  obtain ⟨start, map, results, d, began, ran, same, -⟩ :=
    @map_behaves 1000 (intOf 2) (by rw [two]; decide)
    (by rw [two]; decide) (by decide) (holding 262144 [255]) putGet fits_putGet
  have results_ : (specCalls (number (intOf 2)) .empty putGet).2 = results := congrArg Prod.snd same
  refine ⟨start, map, began, ran.trans ?_⟩
  rw [← results_, two]
  rfl

end Sigil.Stdlib
