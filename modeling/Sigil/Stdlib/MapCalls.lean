import Sigil.Stdlib.Map
import Sigil.Stdlib.MapCells

/-!
# The hash map behaviors on a table

On a buffer whose table has at most 777 slots, each with lengths that fit, no access of the
behaviors is out of bounds and no count wraps around: each of them returns, with what the
functions of the table say.
-/

namespace Sigil.Stdlib

open Flow

section Slots

variable {fuel cap kl vl s t : Nat} {map : Allocation 262144} {key val : Allocation 65536}

/-- The end of the last slot that a buffer of 262144 bytes has room for. -/
theorem slot_inside (below : s < 777) : slotOffset s + 337 ≤ 262144 := by
  unfold slotOffset
  omega

/-- The offset of a slot does not wrap around. -/
theorem slotPlace_count : slotPlace (count s) = count (slotOffset s) := by
  have place : count (slotOffset s) = count s * count 337 + count 8 := by
    rw [slotOffset, count, BitVec.ofNat_add, BitVec.ofNat_mul]
  exact place.symm

/-- A byte is zero in its register. -/
theorem byteReg_eq_zero {b : UInt8} : byteReg b = 0 ↔ b = 0 := byteReg_inj (d := 0)

/-- A byte is two in its register. -/
theorem byteReg_eq_two {b : UInt8} : byteReg b = 2 ↔ b = 2 := byteReg_inj (d := 2)

/-- A division of counts. -/
theorem imod_counts (positive : 0 < cap) (small : s < 2 ^ 63) (small' : cap < 2 ^ 63) :
    imod (count s) (count cap) = some (count (s % cap)) := by
  have nonzero : count cap ≠ 0 := by
    rw [← count_zero, Ne, count_inj small' (by decide)]
    omega
  have least : count s ≠ BitVec.intMin 64 := by
    intro same
    have value := congrArg BitVec.toNat same
    rw [toNat_count small, BitVec.toNat_intMin] at value
    omega
  rw [imod, if_neg (not_or.mpr ⟨nonzero, fun overflow => least overflow.1⟩),
    count_srem small small']

/-- The hash loop goes over the first bytes of the key. -/
theorem exits_hashBody (le : kl ≤ 65536) (enough : kl < fuel) :
    exits (hashBody key (count kl)) fuel (BitVec.ofInt 64 (-3750763034362895725), 0) =
      some (hash key.bytes kl).toBitVec := by
  refine exits_along_leave (p := fun i => ((hash key.bytes i).toBitVec, count i))
    (fun i below => ?_) ?_ enough
  · have more : ige (count i) (count kl) = false := ige_counts_before below (by omega)
    simp only [hashBody, more, load_char (show i < 65536 by omega) (by omega),
      Option.bind_eq_bind, Option.bind_some,
      charReg_and_255, count_succ, Bool.false_eq_true, if_false]
    rfl
  · rw [hashBody, ige_counts (by omega) (by omega), decide_eq_true (Nat.le_refl kl)]
    rfl

/-- A search begins at the home of the key. -/
theorem firstSlot_eq (le : kl ≤ 65536) (positive : 0 < cap) (small : cap < 2 ^ 63)
    (enough : kl < fuel) :
    firstSlot fuel key (count kl) (count cap) = some (count (homeSlot key.bytes kl cap)) := by
  have masked : ((hash key.bytes kl).toBitVec &&& 9223372036854775807 : Register) =
      count (hash key.bytes kl &&& 9223372036854775807).toNat := by
    apply BitVec.eq_of_toNat_eq
    rw [BitVec.toNat_ofNat, Nat.mod_eq_of_lt (UInt64.toNat_lt _)]
    rfl
  have half : (hash key.bytes kl &&& 9223372036854775807).toNat < 2 ^ 63 := by
    rw [UInt64.toNat_and]
    exact Nat.lt_succ_of_le Nat.and_le_right
  rw [firstSlot, exits_hashBody le enough, Option.bind_eq_bind, Option.bind_some, masked,
    imod_counts positive half small, homeSlot]

/-- Masking both bytes leaves whether they are equal. -/
theorem keyBody_eq {kl kbase : Register} :
    keyBody map key kl kbase = matchBody map key kl kbase := by
  funext j
  rw [keyBody, matchBody]
  by_cases done : ige j kl = true
  · rw [if_pos done, if_pos done]
  rw [if_neg done, if_neg done]
  cases loaded : key.load 1 j with
  | none =>
      cases loaded' : map.load 1 (kbase + j) <;>
        simp only [loaded', Option.bind_eq_bind, Option.bind_none, Option.bind_some]
  | some v =>
      cases loaded' : map.load 1 (kbase + j) with
      | none => simp only [loaded', Option.bind_eq_bind, Option.bind_some, Option.bind_none]
      | some w =>
          obtain ⟨c, rfl⟩ := exists_char loaded
          obtain ⟨d, rfl⟩ := exists_char loaded'
          simp only [loaded', Option.bind_eq_bind, Option.bind_some, charReg_and_255,
            Ne, byteReg_inj, charReg_inj]
          by_cases same : c = d
          · rw [if_neg (not_not.mpr same), if_pos same.symm]
          · rw [if_pos same, if_neg (Ne.symm same)]

/-- A word of eight bytes in the buffer. -/
theorem load_count {off : Nat} (inside : off + 8 ≤ 262144) :
    map.load 8 (count off) = some (BitVec.ofNat 64 (map.bytes.load off 8)) := by
  have place : (count off).toNat = off := toNat_count (by omega)
  rw [Allocation.load_inside (by omega), place]
  exact congrArg some (BitVec.signExtend_eq _)

/-- The key of a slot is compared by its length and its bytes. -/
theorem checkKey_eq (below : s < 777) (short : kl ≤ 64) (enough : 64 < fuel) :
    checkKey fuel map key (count kl) (count (slotOffset s)) =
      some (keyMatches map.bytes key.bytes kl s) := by
  have inside := slot_inside below
  have length : (BitVec.ofNat 64 (map.bytes.load (slotOffset s + 1) 8) : Register) = count kl ↔
      map.bytes.load (slotOffset s + 1) 8 = kl := by
    have fits : map.bytes.load (slotOffset s + 1) 8 < 2 ^ 64 :=
      Buffer.load_lt.trans_le (by norm_num)
    rw [← BitVec.toNat_inj, BitVec.toNat_ofNat, toNat_count (by omega), Nat.mod_eq_of_lt fits]
  have place : count (slotOffset s) + 1 = count (slotOffset s + 1) := count_succ
  have place' : count (slotOffset s) + 9 = count (slotOffset s + 9) := count_add (j := 9)
  rw [checkKey, place, place', load_count (by omega), Option.bind_eq_bind, Option.bind_some,
    keyBody_eq,
    matchBody_inside (by omega) (by omega) (by decide) (by decide) (by omega), keyMatches]
  by_cases same : map.bytes.load (slotOffset s + 1) 8 = kl
  · rw [if_pos (length.mpr same), same, beq_self_eq_true, Bool.true_and, Option.some.injEq,
      Bool.eq_iff_iff,
      decide_eq_true_iff, Buffer.same_iff]
  · rw [if_neg (length.not.mpr same), beq_false_of_ne same]
    rfl

/-- The probe goes on to the next slot. -/
theorem nextSlot_eq {ε : Type} (below : s < cap) (small : cap ≤ 777) :
    nextSlot (ε := ε) (count cap) ⟨count s, count t⟩ =
      some (.inl ⟨count ((s + 1) % cap), count (t + 1)⟩) := by
  rw [nextSlot, count_succ, imod_counts (by omega) (by omega) (by omega), count_succ]
  rfl

/-- A search that tries one slot after the other is a probe of the table. -/
theorem exits_probe {ε ρ : Type} {body : Search → Option (Search ⊕ ε)} {stop : Nat → Option ρ}
    {leave : Option ρ → ε}
    (full : ∀ s < cap, body ⟨count s, count cap⟩ = some (.inr (leave none)))
    (turn : ∀ s < cap, ∀ t < cap, body ⟨count s, count t⟩ = some (match stop s with
      | some r => .inr (leave (some r))
      | none => .inl ⟨count ((s + 1) % cap), count (t + 1)⟩))
    (tries : Nat) (below : s < cap) (le : t + tries = cap) (enough : tries < fuel) :
    exits body fuel ⟨count s, count t⟩ = some (leave (probe cap stop tries s)) := by
  induction tries generalizing s t fuel with
  | zero =>
      obtain ⟨fuel, rfl⟩ := Nat.exists_eq_add_one_of_ne_zero (Nat.ne_of_gt enough)
      obtain rfl : t = cap := le
      exact exits_leave (full s below)
  | succ tries ih =>
      obtain ⟨fuel, rfl⟩ := Nat.exists_eq_add_one_of_ne_zero
        (Nat.ne_of_gt (Nat.zero_lt_of_lt enough))
      have here := turn s below t (by omega)
      rw [probe]
      cases found : stop s with
      | some r =>
          rw [found] at here
          exact exits_leave here
      | none =>
          rw [found] at here
          rw [exits_next here]
          exact ih (Nat.mod_lt _ (Nat.zero_lt_of_lt below)) (by omega) (by omega)

/-- The tests of a search before and behind its bound. -/
theorem ige_tries (small : cap ≤ 777) : (∀ t < cap, ige (count t) (count cap) = false) ∧
    ige (count cap) (count cap) = true :=
  ⟨fun t below => ige_counts_before below (by omega), by
    rw [ige_counts (by omega) (by omega), decide_eq_true (Nat.le_refl cap)]⟩

/-- The search of `map-put`. -/
theorem exits_putBody (small : cap ≤ 777) (short : kl ≤ 64) (below : s < cap)
    (enough : 777 < fuel) :
    exits (putBody fuel map key (count kl) (count cap)) fuel ⟨count s, 0⟩ =
      some ((probe cap (putStop map.bytes key.bytes kl) cap s).map count) := by
  obtain ⟨more, ended⟩ := ige_tries small
  refine @exits_probe fuel cap s 0 _ _ _ _ (Option.map count) (fun s below => ?_)
    (fun s below t tried => ?_) cap below
    (Nat.zero_add cap) (by omega)
  · rw [putBody, ended]
    rfl
  · have inside := slot_inside (show s < 777 by omega)
    have checked : checkKey fuel map key (count kl) (count (slotOffset s)) =
      some (keyMatches map.bytes key.bytes kl s) :=
      checkKey_eq (by omega) short (by omega)
    simp only [putBody, more t tried, slotPlace_count,
      load_char (show slotOffset s < 262144 by omega) (by omega), checked,
      nextSlot_eq below small, Option.bind_eq_bind, Option.bind_some,
        charReg_and_255, byteReg_eq_zero, Bool.false_eq_true,
      if_false, putStop]
    split_ifs <;> rfl

/-- The search of the lookups. -/
theorem exits_lookupBody (small : cap ≤ 777) (short : kl ≤ 64) (below : s < cap)
    (enough : 777 < fuel) :
    exits (lookupBody fuel map key (count kl) (count cap)) fuel ⟨count s, 0⟩ =
      some ((probe cap (getStop map.bytes key.bytes kl) cap s).join.map fun slot =>
        count (slotOffset slot)) := by
  obtain ⟨more, ended⟩ := ige_tries small
  refine @exits_probe fuel cap s 0 _ _ _ _
    (fun found => found.join.map fun slot => count (slotOffset slot))
    (fun s below => ?_) (fun s below t tried => ?_) cap below (Nat.zero_add cap) (by omega)
  · rw [lookupBody, ended]
    rfl
  · have inside := slot_inside (show s < 777 by omega)
    have checked : checkKey fuel map key (count kl) (count (slotOffset s)) =
      some (keyMatches map.bytes key.bytes kl s) :=
      checkKey_eq (by omega) short (by omega)
    simp only [lookupBody, more t tried, slotPlace_count,
      load_char (show slotOffset s < 262144 by omega) (by omega), checked,
      nextSlot_eq below small, Option.bind_eq_bind, Option.bind_some,
        charReg_and_255, byteReg_eq_zero, byteReg_eq_two, Bool.false_eq_true,
      if_false, getStop]
    split_ifs <;> rfl

end Slots

section Calls

variable {fuel cap kl vl s : Nat} {map : Allocation 262144} {key val : Allocation 65536}
  {klen vlen status found : Allocation 8}
  {out : Allocation 256}

/-- What an integer buffer holds. -/
def number (a : Allocation 8) : Nat := a.bytes.load 0 8

/-- An INPUT of eight bytes is a number. -/
theorem load_number (a : Allocation 8) : a.load 8 0 = some (count (number a)) := load_intIn a

/-- A number is stored to an OUTPUT of eight bytes. -/
theorem store_number {n : Nat} (a : Allocation 8) (small : n < 2 ^ 63) :
    ∃ a', a.store (count n) 8 0 = some a' ∧ number a' = n := by
  have fits : (count n).toNat = n := toNat_count small
  refine ⟨_, store_int a (count n), ?_⟩
  rw [number, fits, Buffer.load_store (by omega)]

/-- The first word of the map is its capacity. -/
theorem load_capacity : map.load 8 0 = some (count (capacity map.bytes)) :=
  @load_count map 0 (by decide)

/-- A count is stored as it is. -/
theorem store_count {off n : Nat} (inside : off + 8 ≤ 262144) (small : n < 2 ^ 63) :
    map.store (count n) 8 (count off) = some ⟨map.bytes.store off n 8⟩ := by
  have place : (count off).toNat = off := toNat_count (by omega)
  have fits : (count n).toNat = n := toNat_count small
  rw [Allocation.store_inside (by omega), place, fits]

/-- Room for the table of a map. -/
structure Roomy (map : Allocation 262144) : Prop where
  positive : 0 < capacity map.bytes
  bound : capacity map.bytes ≤ 777

/-- An insertion writes what the table writes. -/
theorem insertEntry_eq (below : s < 777) (short : kl ≤ 64) (small : vl ≤ 256)
    (enough : 777 < fuel) :
    insertEntry fuel map key (count kl) val (count vl) (count s) =
      some ⟨insertAt map.bytes key.bytes kl val.bytes vl s⟩ := by
  have inside := slot_inside below
  have place : ∀ i, count (slotOffset s) + count i = count (slotOffset s + i) := fun i => count_add
  have used : ∀ b : Allocation 262144, b.store 1 1 (count (slotOffset s)) =
      some ⟨Function.update b.bytes (slotOffset s) 1⟩ := fun b => store_char (by omega) (by omega)
  have copied : ∀ (src : Allocation 65536) (n d : Nat) (b : Allocation 262144), n ≤ 256 →
    d + n ≤ 262144 →
      exits (maskedCopyBody src 0 (count n) (count d)) fuel (0, b) =
        some ⟨Buffer.copy src.bytes 0 b.bytes d n⟩ :=
    fun src n d b le room => by
      rw [maskedCopyBody_eq]
      exact exits_copyBody (f := 0) (by omega) room (by decide) (by decide) (by omega)
  have first := place 1
  have second := place 9
  have third := place 73
  have fourth := place 81
  rw [insertEntry, slotPlace_count]
  simp only [used, show count (slotOffset s) + 1 = _ from first, show count (slotOffset s) + 9 =
    _ from second,
    show count (slotOffset s) + 73 = _ from third, show count (slotOffset s) + 81 =
      _ from fourth, Option.bind_eq_bind,
    Option.bind_some, store_count (show slotOffset s + 1 + 8 ≤ 262144 by omega)
      (show kl < 2 ^ 63 by omega),
    store_count (show slotOffset s + 73 + 8 ≤ 262144 by omega) (show vl < 2 ^ 63 by omega),
    copied key kl (slotOffset s + 9) _ (by omega) (by omega),
      copied val vl (slotOffset s + 81) _ small (by omega)]
  rfl

/-- `map-put` returns, and does to the buffer what the table does. -/
theorem mapPut_eq (roomy : Roomy map) (short : number klen ≤ 64) (small : number vlen ≤ 256)
    (enough : 777 < fuel)
    (key val : Allocation 65536) (status : Allocation 8) :
      ∃ status', mapPut fuel map key klen val vlen status =
        some (⟨(putTable map.bytes key.bytes (number klen) val.bytes (number vlen)).1⟩, status') ∧
      number status' = (putTable map.bytes key.bytes (number klen) val.bytes (number vlen)).2 := by
  obtain ⟨positive, bound⟩ := roomy
  have begins := @firstSlot_eq fuel (capacity map.bytes) (number klen) key (by omega) positive
    (by omega) (by omega)
  have home := @homeSlot_lt key.bytes (capacity map.bytes) (number klen) positive
  have searched := @exits_putBody fuel (capacity map.bytes) (number klen) _ map key bound short
    home enough
  rw [putTable]
  cases placed : probe (capacity map.bytes) (putStop map.bytes key.bytes (number klen))
    (capacity map.bytes)
      (homeSlot key.bytes (number klen) (capacity map.bytes)) with
  | some slot =>
      rw [placed] at searched
      have inside := putStop_probe home placed
      have written := @insertEntry_eq fuel (number klen) (number vlen) slot map key val
        (by omega) short small enough
      obtain ⟨status', stored, one⟩ := store_number (n := 1) status (by decide)
      refine ⟨status', ?_, one⟩
      simp only [mapPut, load_capacity, load_number, begins, searched, Option.map_some, written,
        Option.bind_eq_bind,
        Option.bind_some]
      rw [show status.store 1 8 0 = _ from stored]
      rfl
  | none =>
      rw [placed] at searched
      obtain ⟨status', stored, zero⟩ := store_number (n := 0) status (by decide)
      refine ⟨status', ?_, zero⟩
      simp only [mapPut, load_capacity, load_number, begins, searched, Option.map_none,
        Option.bind_eq_bind,
        Option.bind_some]
      rw [show status.store 0 8 0 = _ from stored]
      rfl

/-- The lookups find the slot that the table finds. -/
theorem lookupKey_eq (roomy : Roomy map) (short : number klen ≤ 64) (enough : 777 < fuel) :
    lookupKey fuel map key (count (number klen)) (count (capacity map.bytes)) =
      some ((lookupSlot map.bytes key.bytes (number klen)).map fun slot =>
        count (slotOffset slot)) := by
  obtain ⟨positive, bound⟩ := roomy
  rw [lookupKey, firstSlot_eq (by omega) positive (by omega) (by omega), Option.bind_eq_bind,
    Option.bind_some,
    exits_lookupBody bound short (homeSlot_lt positive) enough, lookupSlot]

/-- `map-get` returns, and copies what the table has for the key. -/
theorem mapGet_eq (roomy : Roomy map) (fitting : Fitting (capacity map.bytes) map.bytes)
    (short : number klen ≤ 64)
    (enough : 777 < fuel) (key : Allocation 65536) (out : Allocation 256)
      (vlen found : Allocation 8) :
    ∃ got, mapGet fuel map key klen out vlen found = some got ∧
      got.val.bytes = (getTable map.bytes key.bytes (number klen) out.bytes).val ∧
      number got.vlen = (getTable map.bytes key.bytes (number klen) out.bytes).vlen ∧
      number got.found = (getTable map.bytes key.bytes (number klen) out.bytes).found := by
  have searched := @lookupKey_eq fuel map key klen roomy short enough
  obtain ⟨found', cleared, none_⟩ := store_number (n := 0) found (by decide)
  obtain ⟨vlen', cleared', none'⟩ := store_number (n := 0) vlen (by decide)
  have emptied : out.store 0 1 0 = some ⟨Function.update out.bytes 0 0⟩ :=
    store_char (i := 0) (by decide) (by decide)
  rw [getTable]
  cases there : lookupSlot map.bytes key.bytes (number klen) with
  | some slot =>
      rw [there] at searched
      obtain ⟨below, used⟩ := lookupSlot_inside roomy.positive there
      have inside := slot_inside (show slot < 777 from below.trans_le roomy.bound)
      obtain ⟨l, length⟩ : ∃ l, map.bytes.load (slotOffset slot + 73) 8 = l := ⟨_, rfl⟩
      have fits : l ≤ 256 := length ▸ (fitting slot below used).2
      have loaded : map.load 8 (count (slotOffset slot) + 73) = some (count l) := by
        have place : count (slotOffset slot) + 73 = count (slotOffset slot + 73) :=
          count_add (j := 73)
        rw [place, load_count (by omega), length]
      have copied : exits (maskedCopyBody map (count (slotOffset slot) + 81) (count l) 0) fuel
          (0, (⟨Function.update out.bytes 0 0⟩ : Allocation 256)) =
            some ⟨Buffer.copy map.bytes (slotOffset slot + 81) (Function.update out.bytes 0 0) 0
              l⟩ := by
        have place : count (slotOffset slot) + 81 = count (slotOffset slot + 81) :=
          count_add (j := 81)
        rw [maskedCopyBody_eq, place]
        exact exits_copyBody (d := 0) (by omega) (by omega) (by decide) (by decide) (by omega)
      obtain ⟨vlen₂, stored, some_⟩ := store_number (n := l) vlen' (by omega)
      obtain ⟨found₂, stored', some'⟩ := store_number (n := 1) found' (by decide)
      refine ⟨⟨⟨Buffer.copy map.bytes (slotOffset slot + 81) (Function.update out.bytes 0 0) 0
        l⟩, vlen₂, found₂⟩, ?_, ?_,
        some_.trans length.symm, some'⟩
      · simp only [mapGet, load_capacity, load_number, show found.store 0 8 0 = _ from cleared,
          show vlen.store 0 8 0 = _ from cleared', emptied, searched, Option.map_some, loaded,
            copied, stored,
          show found'.store 1 8 0 = _ from stored', Option.bind_eq_bind, Option.bind_some]
        rfl
      · rw [← length]
  | none =>
      rw [there] at searched
      refine ⟨⟨⟨Function.update out.bytes 0 0⟩, vlen', found'⟩, ?_, rfl, none', none_⟩
      simp only [mapGet, load_capacity, load_number, show found.store 0 8 0 = _ from cleared,
        show vlen.store 0 8 0 = _ from cleared', emptied, searched, Option.map_none,
          Option.bind_eq_bind, Option.bind_some]
      rfl

/-- `map-has` asks the table. -/
theorem mapHas_eq (roomy : Roomy map) (short : number klen ≤ 64) (enough : 777 < fuel)
    (key : Allocation 65536)
    (found : Allocation 8) :
    ∃ found', mapHas fuel map key klen found = some found' ∧
      number found' = hasTable map.bytes key.bytes (number klen) := by
  have searched := @lookupKey_eq fuel map key klen roomy short enough
  obtain ⟨found', cleared, none_⟩ := store_number (n := 0) found (by decide)
  rw [hasTable]
  cases there : lookupSlot map.bytes key.bytes (number klen) with
  | some slot =>
      rw [there] at searched
      obtain ⟨found₂, stored, one⟩ := store_number (n := 1) found' (by decide)
      refine ⟨found₂, ?_, one⟩
      simp only [mapHas, load_capacity, load_number, show found.store 0 8 0 = _ from cleared,
        searched, Option.map_some,
        Option.bind_eq_bind, Option.bind_some]
      exact stored
  | none =>
      rw [there] at searched
      refine ⟨found', ?_, none_⟩
      simp only [mapHas, load_capacity, load_number, show found.store 0 8 0 = _ from cleared,
        searched, Option.map_none,
        Option.bind_eq_bind, Option.bind_some]
      rfl

/-- `map-delete` returns, and marks the slot that the table marks. -/
theorem mapDelete_eq (roomy : Roomy map) (short : number klen ≤ 64) (enough : 777 < fuel)
    (key : Allocation 65536)
    (found : Allocation 8) :
    ∃ found', mapDelete fuel map key klen found =
        some (⟨(deleteTable map.bytes key.bytes (number klen)).1⟩, found') ∧
      number found' = (deleteTable map.bytes key.bytes (number klen)).2 := by
  have searched := @lookupKey_eq fuel map key klen roomy short enough
  obtain ⟨found', cleared, none_⟩ := store_number (n := 0) found (by decide)
  rw [deleteTable]
  cases there : lookupSlot map.bytes key.bytes (number klen) with
  | some slot =>
      rw [there] at searched
      have below := (lookupSlot_inside roomy.positive there).1
      have inside := slot_inside (show slot < 777 from below.trans_le roomy.bound)
      have marked : map.store 2 1 (count (slotOffset slot)) =
        some ⟨Function.update map.bytes (slotOffset slot) 2⟩ :=
        store_char (by omega) (by omega)
      obtain ⟨found₂, stored, one⟩ := store_number (n := 1) found' (by decide)
      refine ⟨found₂, ?_, one⟩
      simp only [mapDelete, load_capacity, load_number, show found.store 0 8 0 = _ from cleared,
        searched, Option.map_some,
        marked, show found'.store 1 8 0 = _ from stored, Option.bind_eq_bind, Option.bind_some]
      rfl
  | none =>
      rw [there] at searched
      refine ⟨found', ?_, none_⟩
      simp only [mapDelete, load_capacity, load_number, show found.store 0 8 0 = _ from cleared,
        searched, Option.map_none,
        Option.bind_eq_bind, Option.bind_some]
      rfl

/-- `map-init` returns, and clears what the table clears. -/
theorem mapInit_eq {cap : Allocation 8} (bound : number cap ≤ 777) (enough : 777 < fuel)
    (buffer : Allocation 262144) :
    mapInit fuel buffer cap = some ⟨initTable buffer.bytes (number cap)⟩ := by
  have stored : buffer.store (count (number cap)) 8 0 =
    some ⟨buffer.bytes.store 0 (number cap) 8⟩ :=
    @store_count buffer 0 (number cap) (by decide) (by omega)
  rw [mapInit, load_number, Option.bind_eq_bind, Option.bind_some, stored, Option.bind_eq_bind,
    Option.bind_some]
  refine exits_along_leave (n := number cap)
    (p := fun i =>
      (count i, (⟨clearSlots (buffer.bytes.store 0 (number cap) 8) i⟩ : Allocation 262144)))
    (fun i below => ?_) ?_ (by omega)
  · have inside := slot_inside (show i < 777 by omega)
    have cleared : ∀ b : Allocation 262144, b.store 0 1 (count (slotOffset i)) =
        some ⟨Function.update b.bytes (slotOffset i) 0⟩ := fun b => store_char (by omega) (by omega)
    simp only [clearBody, ige_counts_before below (show number cap < 2 ^ 63 by omega),
      slotPlace_count, cleared, count_succ,
      Option.bind_eq_bind, Option.bind_some, Bool.false_eq_true, if_false]
    rfl
  · rw [clearBody, ige_counts (by omega) (by omega), decide_eq_true (Nat.le_refl _)]
    rfl

end Calls

end Sigil.Stdlib
