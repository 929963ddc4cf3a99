import Mathlib

/-!
# Linear probing

A table with open addressing keeps each key in one slot and deletes by marking. A search goes
from the home slot of its key to the next ones and round again. It meets every slot, so it
finds a key wherever it is, provided that no slot before it on the way is empty.
-/

namespace Flow

variable {ρ : Type*} {cap : Nat} {stop : Nat → Option ρ} {r : ρ} {tries slot i j s : Nat}

/-- The slots from a given one on, up to the first that stops the search. -/
def probe (cap : Nat) (stop : Nat → Option ρ) : Nat → Nat → Option ρ
  | 0, _ => none
  | tries + 1, slot =>
      match stop slot with
      | some r => some r
      | none => probe cap stop tries ((slot + 1) % cap)

/-- The probe goes around the table. -/
theorem next_slot : ((slot + 1) % cap + i) % cap = (slot + (i + 1)) % cap := by
  rw [Nat.mod_add_mod]
  congr 1
  omega

/-- A probe finds nothing when no slot stops it. -/
theorem probe_eq_none_iff (inside : slot < cap) : probe cap stop tries slot = none ↔
    ∀ i < tries, stop ((slot + i) % cap) = none := by
  induction tries generalizing slot with
  | zero => simp [probe]
  | succ tries ih =>
      have next := Nat.mod_lt (slot + 1) (Nat.zero_lt_of_lt inside)
      have here : (slot + 0) % cap = slot := Nat.mod_eq_of_lt inside
      cases found : stop slot with
      | some r =>
          simp only [probe, found, reduceCtorEq, false_iff, not_forall]
          exact ⟨0, Nat.succ_pos tries, by rw [here, found]; simp⟩
      | none =>
          simp only [probe, found, ih next, next_slot]
          refine ⟨fun later i below => ?_, fun all i below => all (i + 1) (Nat.succ_lt_succ below)⟩
          cases i with
          | zero => rw [here, found]
          | succ i => exact later i (Nat.lt_of_succ_lt_succ below)

/-- A probe finds the first slot that stops it. -/
theorem probe_eq_some_iff (inside : slot < cap) : probe cap stop tries slot = some r ↔
    ∃ i < tries, stop ((slot + i) % cap) = some r ∧ ∀ j < i, stop ((slot + j) % cap) = none := by
  induction tries generalizing slot with
  | zero => simp [probe]
  | succ tries ih =>
      have next := Nat.mod_lt (slot + 1) (Nat.zero_lt_of_lt inside)
      have here : (slot + 0) % cap = slot := Nat.mod_eq_of_lt inside
      cases found : stop slot with
      | some q =>
          simp only [probe, found]
          constructor
          · rintro same
            exact ⟨0, Nat.succ_pos tries, by rw [here, found, same], by simp⟩
          · rintro ⟨i, _, last, before⟩
            cases i with
            | zero => rw [← found, ← here, last]
            | succ i =>
                have none := before 0 (Nat.succ_pos i)
                rw [here, found] at none
                cases none
      | none =>
          simp only [probe, found, ih next, next_slot]
          constructor
          · rintro ⟨i, below, last, before⟩
            refine ⟨i + 1, Nat.succ_lt_succ below, last, fun j earlier => ?_⟩
            cases j with
            | zero => rw [here, found]
            | succ j => exact before j (Nat.lt_of_succ_lt_succ earlier)
          · rintro ⟨i, below, last, before⟩
            cases i with
            | zero =>
                rw [here, found] at last
                cases last
            | succ i =>
                exact ⟨i, Nat.lt_of_succ_lt_succ below, last,
                  fun j earlier => before (j + 1) (Nat.succ_lt_succ earlier)⟩

/-- A full round meets every slot. -/
theorem exists_round (slot : Nat) (inside : s < cap) : ∃ i < cap, (slot + i) % cap = s := by
  have positive := Nat.zero_lt_of_lt inside
  refine ⟨(s + (cap - slot % cap)) % cap, Nat.mod_lt _ positive, ?_⟩
  have small := Nat.mod_lt slot positive
  have parts := Nat.mod_add_div slot cap
  have whole : slot + (s + (cap - slot % cap)) = s + cap * (slot / cap + 1) := by
    rw [Nat.mul_add_one]
    omega
  rw [Nat.add_mod_mod, whole, Nat.add_mul_mod_self_left, Nat.mod_eq_of_lt inside]

/-- A round meets no slot twice. -/
theorem round_injective (below : i < cap) (below' : j < cap)
    (same : (slot + i) % cap = (slot + j) % cap) : i = j := by
  have cancelled : i % cap = j % cap := Nat.ModEq.add_left_cancel' slot same
  rwa [Nat.mod_eq_of_lt below, Nat.mod_eq_of_lt below'] at cancelled

/-- A slot: never used, with a key and its value, or with the key of a deleted entry. -/
inductive Cell (κ β : Type*) where
  | empty
  | live (key : κ) (value : β)
  | dead (key : κ)

namespace Cell

variable {κ β : Type*}

def key : Cell κ β → Option κ
  | empty => none
  | live k _ | dead k => some k

@[simp] theorem key_empty : (empty : Cell κ β).key = none := rfl
@[simp] theorem key_live {k : κ} {v : β} : (live k v).key = some k := rfl
@[simp] theorem key_dead {k : κ} : (dead k : Cell κ β).key = some k := rfl

variable {table : Nat → Cell κ β} {home : κ → Nat} {k l : κ} {v : β} {c : Cell κ β}

/-- An insertion stops at a slot that is empty or has the key. -/
def place [DecidableEq κ] (table : Nat → Cell κ β) (k : κ) (s : Nat) : Option Nat :=
  match (table s).key with
  | none => some s
  | some l => if l = k then some s else none

/-- A lookup stops at an empty slot without a result, and at a live one with the key. -/
def find [DecidableEq κ] (table : Nat → Cell κ β) (k : κ) (s : Nat) : Option (Option Nat) :=
  match table s with
  | empty => some none
  | live l _ => if l = k then some (some s) else none
  | dead _ => none

/-- A key is not placed on another. -/
theorem place_eq_none_iff [DecidableEq κ] :
    place table k s = none ↔ ∃ l, (table s).key = some l ∧ l ≠ k := by
  unfold place
  cases (table s).key with
  | none => simp
  | some l => by_cases same : l = k <;> simp [same]

/-- A key is placed in a free slot or in its own. -/
theorem place_eq_some_iff [DecidableEq κ] : place table k s = some i ↔
    i = s ∧ ((table s).key = none ∨ (table s).key = some k) := by
  unfold place
  cases (table s).key with
  | none => simp [eq_comm]
  | some l =>
      by_cases same : l = k
      · simp [same, eq_comm]
      · simp [same]

/-- Every key is in one slot, and no slot between its home and there is empty. -/
structure Probed (cap : Nat) (home : κ → Nat) (table : Nat → Cell κ β) : Prop where
  inside : ∀ k, home k < cap
  once : ∀ k, ∀ s < cap, ∀ t < cap, (table s).key = some k → (table t).key = some k → s = t
  path : ∀ k, ∀ i < cap, (table ((home k + i) % cap)).key = some k →
    ∀ j < i, (table ((home k + j) % cap)).key ≠ none

/-- An empty table is probed. -/
theorem probed_empty (inside : ∀ k, home k < cap) (empty : ∀ s < cap, (table s).key = none) :
    Probed cap home table where
  inside := inside
  once k s below t _ found := by simp [empty s below] at found
  path k i below found := by
    rw [empty _ (Nat.mod_lt _ (Nat.zero_lt_of_lt below))] at found
    cases found

namespace Probed

/-- Only the slots of the table count. -/
theorem congr (probed : Probed cap home table) {table' : Nat → Cell κ β}
    (same : ∀ s < cap, table' s = table s) : Probed cap home table' := by
  have round : ∀ {i n}, i < cap → table' (n % cap) = table (n % cap) := fun below =>
    same _ (Nat.mod_lt _ (Nat.zero_lt_of_lt below))
  refine ⟨probed.inside, fun k s below t below' here there =>
    ?_, fun k i below found j earlier => ?_⟩
  · rw [same s below] at here
    rw [same t below'] at there
    exact probed.once k s below t below' here there
  · rw [round below] at found ⊢
    exact probed.path k i below found j earlier

/-- The slots on the way to a key have other keys. -/
theorem other_of_path (probed : Probed cap home table) (below : i < cap)
    (found : (table ((home k + i) % cap)).key = some k) (before : j < i) :
    ∃ l, (table ((home k + j) % cap)).key = some l ∧ l ≠ k := by
  obtain ⟨l, other⟩ := Option.ne_none_iff_exists'.mp (probed.path k i below found j before)
  refine ⟨l, other, ?_⟩
  rintro rfl
  have positive := Nat.zero_lt_of_lt below
  have same := probed.once l _ (Nat.mod_lt _ positive) _ (Nat.mod_lt _ positive) found other
  exact Nat.ne_of_gt before (round_injective below (Nat.lt_trans before below) same)

/-- An insertion finds the slot of a key that is in the table. -/
theorem place_of_key [DecidableEq κ] (probed : Probed cap home table) (below : s < cap)
    (found : (table s).key = some k) :
    probe cap (place table k) cap (home k) = some s := by
  obtain ⟨i, round, rfl⟩ := exists_round (home k) below
  refine (probe_eq_some_iff (probed.inside k)).mpr
    ⟨i, round, place_eq_some_iff.mpr ⟨rfl, .inr found⟩, fun j before => ?_⟩
  exact place_eq_none_iff.mpr (probed.other_of_path round found before)

/-- An insertion of a new key fails only when no slot is empty. -/
theorem place_eq_none [DecidableEq κ] (probed : Probed cap home table) :
    probe cap (place table k) cap (home k) = none ↔
    ∀ s < cap, (table s).key ≠ none ∧ (table s).key ≠ some k := by
  rw [probe_eq_none_iff (probed.inside k)]
  constructor
  · intro none s below
    obtain ⟨i, round, rfl⟩ := exists_round (home k) below
    obtain ⟨l, found, other⟩ := place_eq_none_iff.mp (none i round)
    simp [found, other]
  · intro all i round
    obtain ⟨taken, absent⟩ := all _ (Nat.mod_lt (home k + i) (Nat.zero_lt_of_lt round))
    obtain ⟨l, found⟩ := Option.ne_none_iff_exists'.mp taken
    refine place_eq_none_iff.mpr ⟨l, found, ?_⟩
    rintro rfl
    exact absent found

/-- Another cell in a slot, with the key that was there. -/
theorem update_same (probed : Probed cap home table) (same : c.key = (table s).key) :
    Probed cap home (Function.update table s c) := by
  have keys : ∀ t, (Function.update table s c t).key = (table t).key := by
    intro t
    by_cases here : t = s
    · subst here
      simpa using same
    · simp [here]
  refine ⟨probed.inside, ?_, ?_⟩
  · simpa only [keys] using probed.once
  · simpa only [keys] using probed.path

/-- A new key in the first empty slot of its search. -/
theorem update_new [DecidableEq κ] (probed : Probed cap home table)
    (absent : ∀ t < cap, (table t).key ≠ some k)
    (placed : probe cap (place table k) cap (home k) = some s) (key : c.key = some k) :
    Probed cap home (Function.update table s c) := by
  obtain ⟨i, round, stopped, before⟩ := (probe_eq_some_iff (probed.inside k)).mp placed
  obtain ⟨rfl, found⟩ := place_eq_some_iff.mp stopped
  have positive := Nat.zero_lt_of_lt round
  have free := found.resolve_right (absent _ (Nat.mod_lt _ positive))
  have taken : ∀ {t}, (table t).key ≠ none →
      (Function.update table ((home k + i) % cap) c t).key = (table t).key := by
    intro t used
    have other : t ≠ (home k + i) % cap := by
      rintro rfl
      exact used free
    simp [other]
  have keys : ∀ {t l}, (Function.update table ((home k + i) % cap) c t).key = some l →
      (t = (home k + i) % cap ∧ l = k) ∨ (table t).key = some l := by
    intro t l after
    by_cases here : t = (home k + i) % cap
    · subst here
      exact .inl ⟨rfl, by simpa [key, eq_comm] using after⟩
    · exact .inr (by simpa [here] using after)
  refine ⟨probed.inside, fun l t below u below' here there =>
    ?_, fun l n below here j earlier => ?_⟩
  · obtain ⟨rfl, rfl⟩ | old := keys here
    · obtain ⟨rfl, -⟩ | old' := keys there
      · rfl
      · exact absurd old' (absent u below')
    · obtain ⟨rfl, rfl⟩ | old' := keys there
      · exact absurd old (absent t below)
      · exact probed.once l t below u below' old old'
  · have used : (table ((home l + j) % cap)).key ≠ none := by
      obtain ⟨same, rfl⟩ | old := keys here
      · obtain rfl := round_injective below round same
        obtain ⟨l', taken, _⟩ := place_eq_none_iff.mp (before j earlier)
        simp [taken]
      · exact probed.path l n below old j earlier
    rwa [taken used]

/-- A lookup finds the live slot with the key. -/
theorem find_iff [DecidableEq κ] (probed : Probed cap home table) :
    probe cap (find table k) cap (home k) = some (some s) ↔ s < cap ∧ ∃ v, table s = live k v := by
  rw [probe_eq_some_iff (probed.inside k)]
  constructor
  · rintro ⟨i, round, stopped, _⟩
    have below := Nat.mod_lt (home k + i) (Nat.zero_lt_of_lt round)
    unfold find at stopped
    split at stopped
    · simp at stopped
    next l v entry =>
      split at stopped
      next same =>
        obtain rfl : (home k + i) % cap = s := by simpa using stopped
        exact ⟨below, v, same ▸ entry⟩
      · cases stopped
    · cases stopped
  · rintro ⟨below, v, entry⟩
    obtain ⟨i, round, rfl⟩ := exists_round (home k) below
    refine ⟨i, round, by simp [find, entry], fun j before => ?_⟩
    have key : (table ((home k + i) % cap)).key = some k := by rw [entry]; rfl
    obtain ⟨l, other, apart⟩ := probed.other_of_path round key before
    unfold find
    split
    next empty => simp [empty] at other
    next l' v' entry' =>
      obtain rfl : l' = l := by simpa [entry'] using other
      exact if_neg apart
    · rfl

end Probed

end Cell

/-- What a table is for: the keys that were ever inserted, and the values they have now. -/
structure Dict (κ β : Type*) where
  inserted : Finset κ
  find : κ → Option β

namespace Dict

variable {κ β : Type*}

def empty : Dict κ β := ⟨∅, fun _ => none⟩

variable [DecidableEq κ]

@[simps] def insert (d : Dict κ β) (k : κ) (v : β) : Dict κ β :=
  ⟨Insert.insert k d.inserted, Function.update d.find k (some v)⟩

@[simps] def erase (d : Dict κ β) (k : κ) : Dict κ β := ⟨d.inserted, Function.update d.find k none⟩

/-- Erasing what is absent changes nothing. -/
theorem erase_of_none {d : Dict κ β} {k : κ} (absent : d.find k = none) : d.erase k = d := by
  rw [erase, ← absent, Function.update_eq_self]

/-- An insertion into `cap` slots, and whether there was room for the key. -/
def put (cap : Nat) (d : Dict κ β) (k : κ) (v : β) : Dict κ β × Bool :=
  if k ∈ d.inserted ∨ d.inserted.card < cap then (d.insert k v, true) else (d, false)

end Dict

namespace Cell

variable {κ β : Type*} {table : Nat → Cell κ β} {home : κ → Nat} {k l : κ} {v : β} {c : Cell κ β}
  {d : Dict κ β}

/-- A table holds a dictionary. -/
structure Holds (cap : Nat) (home : κ → Nat) (table : Nat → Cell κ β) (d : Dict κ β) : Prop where
  probed : Probed cap home table
  inserted : ∀ k, k ∈ d.inserted ↔ ∃ s < cap, (table s).key = some k
  find : ∀ k v, d.find k = some v ↔ ∃ s < cap, table s = live k v

/-- An empty table holds nothing. -/
theorem holds_empty (inside : ∀ k, home k < cap) (none : ∀ s < cap, table s = empty) :
    Holds cap home table .empty where
  probed := probed_empty inside fun s below => by rw [none s below]; rfl
  inserted k := by
    refine iff_of_false (Finset.notMem_empty k) ?_
    rintro ⟨s, below, found⟩
    rw [none s below] at found
    cases found
  find k v := by
    refine iff_of_false (by simp [Dict.empty]) ?_
    rintro ⟨s, below, entry⟩
    rw [none s below] at entry
    cases entry

namespace Holds

/-- Only the slots of the table count. -/
theorem congr (holds : Holds cap home table d) {table' : Nat → Cell κ β}
    (same : ∀ s < cap, table' s = table s) : Holds cap home table' d where
  probed := holds.probed.congr same
  inserted k := by
    rw [holds.inserted]
    exact exists_congr fun s => and_congr_right fun below => by rw [same s below]
  find k v := by
    rw [holds.find]
    exact exists_congr fun s => and_congr_right fun below => by rw [same s below]

/-- The keys are as many as the slots in use. -/
theorem card_inserted (holds : Holds cap home table d) :
    d.inserted.card = ((Finset.range cap).filter fun s => (table s).key.isSome).card := by
  classical
  have same : ((Finset.range cap).filter fun s => (table s).key.isSome).image
    (fun s => (table s).key) =
      d.inserted.image some := by
    ext key
    cases key with
    | none => simp +contextual [Option.isSome_iff_ne_none]
    | some k =>
        simp only [Finset.mem_image, Finset.mem_filter, Finset.mem_range, Option.some.injEq,
          exists_eq_right, holds.inserted]
        refine exists_congr fun s => ⟨fun ⟨used, found⟩ =>
          ⟨used.1, found⟩, fun ⟨below, found⟩ => ?_⟩
        exact ⟨⟨below, by rw [found]; rfl⟩, found⟩
  rw [← Finset.card_image_of_injective d.inserted (Option.some_injective κ), ← same]
  refine Finset.card_image_of_injOn fun s here t there keys => ?_
  obtain ⟨below, used⟩ := Finset.mem_filter.mp here
  obtain ⟨below', -⟩ := Finset.mem_filter.mp there
  obtain ⟨k, found⟩ := Option.isSome_iff_exists.mp used
  exact holds.probed.once k s (Finset.mem_range.mp below) t (Finset.mem_range.mp below') found
    (keys.symm.trans found)

/-- No more keys than slots. -/
theorem card_le (holds : Holds cap home table d) : d.inserted.card ≤ cap := by
  rw [holds.card_inserted]
  exact (Finset.card_filter_le _ _).trans_eq (Finset.card_range cap)

/-- The table is full when no slot is free. -/
theorem card_eq_iff (holds : Holds cap home table d) :
    d.inserted.card = cap ↔ ∀ s < cap, (table s).key ≠ none := by
  have all := Finset.card_filter_eq_iff (s := Finset.range cap) (p := fun s => (table s).key.isSome)
  rw [Finset.card_range] at all
  rw [holds.card_inserted, all]
  simp [Option.isSome_iff_ne_none]

/-- There is no room for a key only when it is new and every slot has another one. -/
theorem full_iff [DecidableEq κ] (holds : Holds cap home table d) :
    probe cap (place table k) cap (home k) = none ↔ k ∉ d.inserted ∧ d.inserted.card = cap := by
  rw [holds.probed.place_eq_none, holds.card_eq_iff, holds.inserted]
  simp only [not_exists, not_and]
  exact ⟨fun all => ⟨fun s below => (all s below).2, fun s below => (all s below).1⟩,
    fun all s below => ⟨all.2 s below, all.1 s below⟩⟩

/-- A key has room when a probe finds a place. -/
theorem room_iff [DecidableEq κ] (holds : Holds cap home table d) :
    (k ∈ d.inserted ∨ d.inserted.card < cap) ↔ ∃ s, probe cap (place table k) cap (home k) =
      some s := by
  rw [← not_iff_not, ← Option.ne_none_iff_exists', not_not, holds.full_iff]
  have := holds.card_le
  constructor
  · intro neither
    simp only [not_or] at neither
    exact ⟨neither.1, by omega⟩
  · rintro ⟨absent, full⟩
    simp [absent, full]

/-- The slot for a key is empty or its own. -/
theorem slot_of_place [DecidableEq κ] (holds : Holds cap home table d)
    (placed : probe cap (place table k) cap (home k) = some s) : s < cap ∧
      ((table s).key = some k ∨ ((table s).key = none ∧ ∀ t < cap, (table t).key ≠ some k)) := by
  obtain ⟨i, round, stopped, -⟩ := (probe_eq_some_iff (holds.probed.inside k)).mp placed
  obtain ⟨rfl, found⟩ := place_eq_some_iff.mp stopped
  refine ⟨Nat.mod_lt _ (Nat.zero_lt_of_lt round), found.symm.imp id fun free => ⟨free, ?_⟩⟩
  intro t below taken
  obtain rfl := Option.some.inj (placed.symm.trans (holds.probed.place_of_key below taken))
  rw [free] at taken
  cases taken

/-- An entry in the slot that the search for its key gave. -/
theorem insert [DecidableEq κ] (holds : Holds cap home table d) (v : β)
    (placed : probe cap (place table k) cap (home k) = some s) :
    Holds cap home (Function.update table s (live k v)) (d.insert k v) := by
  obtain ⟨below, slot⟩ := holds.slot_of_place placed
  have only : ∀ t < cap, (table t).key = some k → t = s := by
    intro t inside taken
    obtain own | ⟨-, absent⟩ := slot
    · exact holds.probed.once k t inside s below taken own
    · exact absurd taken (absent t inside)
  have others : ∀ {l}, (table s).key = some l → l = k := by
    intro l taken
    obtain own | ⟨free, -⟩ := slot
    · exact Option.some.inj (taken.symm.trans own)
    · rw [free] at taken
      cases taken
  refine ⟨?_, fun l => ?_, fun l w => ?_⟩
  · obtain own | ⟨-, absent⟩ := slot
    · exact holds.probed.update_same (by simp [own])
    · exact holds.probed.update_new absent placed rfl
  · rw [Dict.insert_inserted, Finset.mem_insert, holds.inserted]
    constructor
    · rintro (rfl | ⟨t, inside, taken⟩)
      · exact ⟨s, below, by simp⟩
      · by_cases here : t = s
        · subst here
          exact ⟨t, inside, by simp [others taken]⟩
        · exact ⟨t, inside, by simpa [here] using taken⟩
    · rintro ⟨t, inside, taken⟩
      by_cases here : t = s
      · subst here
        exact .inl (by simpa [eq_comm] using taken)
      · exact .inr ⟨t, inside, by simpa [here] using taken⟩
  · by_cases same : l = k
    · subst same
      simp only [Dict.insert_find, Function.update_self, Option.some.injEq]
      constructor
      · rintro rfl
        exact ⟨s, below, by simp⟩
      · rintro ⟨t, inside, entry⟩
        by_cases here : t = s
        · simpa [here] using entry
        · rw [Function.update_of_ne here] at entry
          exact absurd (only t inside (by rw [entry]; rfl)) here
    · rw [Dict.insert_find, Function.update_of_ne same, holds.find]
      refine exists_congr fun t => and_congr_right fun inside => ?_
      by_cases here : t = s
      · subst here
        simp only [Function.update_self, live.injEq]
        exact iff_of_false (fun entry => same (others (by rw [entry]; rfl))) fun both =>
          same both.1.symm
      · rw [Function.update_of_ne here]

/-- The slot of an entry marked. -/
theorem erase [DecidableEq κ] (holds : Holds cap home table d) (below : s < cap)
    (entry : table s = live k v) :
    Holds cap home (Function.update table s (dead k)) (d.erase k) := by
  have key : (dead k : Cell κ β).key = (table s).key := by rw [entry]; rfl
  have keys : ∀ t, (Function.update table s (dead k) t).key = (table t).key := by
    intro t
    by_cases here : t = s
    · subst here
      simpa using key
    · simp [here]
  refine ⟨holds.probed.update_same key, fun l => ?_, fun l w => ?_⟩
  · simpa only [Dict.erase_inserted, keys] using holds.inserted l
  · have other : ∀ t, t ≠ s → Function.update table s (dead k) t = table t := fun t here =>
      Function.update_of_ne here _ _
    by_cases same : l = k
    · subst same
      simp only [Dict.erase_find, Function.update_self, reduceCtorEq, false_iff]
      rintro ⟨t, inside, left⟩
      by_cases here : t = s
      · simp [here] at left
      · rw [other t here] at left
        exact here (holds.probed.once l t inside s below (by rw [left]; rfl) (by rw [entry]; rfl))
    · rw [Dict.erase_find, Function.update_of_ne same, holds.find]
      refine exists_congr fun t => and_congr_right fun inside => ?_
      by_cases here : t = s
      · subst here
        rw [entry]
        simp [Ne.symm same]
      · rw [other t here]

/-- A lookup gives the value of the key. -/
theorem lookup [DecidableEq κ] (holds : Holds cap home table d) : d.find k = some v ↔
    ∃ s, probe cap (Cell.find table k) cap (home k) = some (some s) ∧ table s = live k v := by
  rw [holds.find]
  constructor
  · rintro ⟨s, below, entry⟩
    exact ⟨s, holds.probed.find_iff.mpr ⟨below, v, entry⟩, entry⟩
  · rintro ⟨s, found, entry⟩
    exact ⟨s, (holds.probed.find_iff.mp found).1, entry⟩

end Holds

end Cell

end Flow
