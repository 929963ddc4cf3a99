import Sigil.Stdlib.Matching

/-!
# Searching texts

`contains` searches a text up to its terminator, `find` its whole buffer. The two agree where no
part of the needle is matched behind the terminator.
-/

namespace Sigil.Stdlib

open Flow

/-- `search_loop` to `no_match_here` -/
def searchBody (fuel : Nat) (haystack : Allocation 65536) (needle : Allocation 256)
    (needle_len pos : Register) :
    Option (Register ⊕ Register) := do
  if ige pos 65536 then return .inr (-1)
  if ← exits (matchBody haystack needle needle_len pos) fuel 0 then return .inr pos
  return .inl (pos + 1)

/-- The behavior `find`: its OUTPUT, and what the handles hold that it frees at `done`, `needle_len`
and `pos`. On the path of the empty needle no ALLOC has made `pos`. -/
def find (fuel : Nat) (haystack : Allocation 65536) (needle : Allocation 256)
    (index : Allocation 8) : Option (Allocation 8 × List (Option Register)) := do
  let needle_len ← getLength fuel needle 256
  if needle_len = 0 then
    let index ← index.store 0 8 0
    return (index, [some needle_len, none])
  let found ← exits (searchBody fuel haystack needle needle_len) fuel 0
  let index ← index.store found 8 0
  return (index, [some needle_len, some found])

/-- `nl` of `contains` -/
def needleLengthBody (needle : Allocation 256) (nlen : Register) :
    Option (Register ⊕ Register) := do
  let nc ← needle.load 1 nlen
  if nc = 0 then return .inr nlen
  return .inl (nlen + 1)

/-- `sloop` to `nomatch` of `contains` -/
def containsBody (fuel : Nat) (haystack : Allocation 65536) (needle : Allocation 256)
    (nlen pos : Register) :
    Option (Register ⊕ Register) := do
  let hc ← haystack.load 1 pos
  if hc = 0 then return .inr 0
  if ← exits (matchBody haystack needle nlen pos) fuel 0 then return .inr 1
  return .inl (pos + 1)

/-- The behavior `contains`. -/
def contains (fuel : Nat) (haystack : Allocation 65536) (needle : Allocation 256)
    (result : Allocation 8) :
    Option (Allocation 8) := do
  let nlen ← exits (needleLengthBody needle) fuel 0
  if nlen = 0 then result.store 1 8 0
  else
    let found ← exits (containsBody fuel haystack needle nlen) fuel 0
    result.store found 8 0

section Runs

variable {fuel n p : Nat} {haystack : Allocation 65536} {needle : Allocation 256}
  {index result : Allocation 8} {xs : List UInt8}

/-- One place of the search is matched against the needle. -/
theorem searchBody_eq (chars : needle.bytes.bytes 0 n = xs) (inside : n ≤ 256)
    (below : p < 65536) (enough : n < fuel) :
    searchBody fuel haystack needle (count n) (count p) =
      (matchOf xs ((haystack.bytes.bytes 0 65536).drop p)).map fun found =>
        if found then .inr (count p) else .inl (count (p + 1)) := by
  have more : ige (count p) 65536 = false := ige_before (n := 65536) rfl (by omega) (by decide)
  simp only [searchBody, more, matchBody_eq inside below.le (by decide) (by decide) enough,
    chars, count_succ, Bool.false_eq_true, if_false]
  cases matchOf xs ((haystack.bytes.bytes 0 65536).drop p) with
  | none => rfl
  | some found => cases found <;> rfl

/-- On the path of the empty needle `find` frees a handle that has not been made. -/
theorem find_empty (length : (needle.bytes.text 256).length = 0) (enough : 65536 < fuel) :
    find fuel haystack needle index = some (⟨index.bytes.store 0 0 8⟩, [some (count 0), none]) := by
  have scanned : getLength fuel needle 256 = some (count 0) :=
    length ▸ getLength_eq rfl (by decide) (by decide) (by omega)
  simp only [find, scanned, count_zero, Option.bind_eq_bind, Option.bind_some, if_true, store_int]
  rfl

/-- `find` where the needle is not empty. -/
theorem find_search (length : (needle.bytes.text 256).length = n) (some_ : 0 < n)
    (enough : 65536 < fuel) :
    find fuel haystack needle index =
      (exits (searchBody fuel haystack needle (count n)) fuel 0).bind fun found =>
        some (⟨index.bytes.store 0 found.toNat 8⟩, [some (count n), some found]) := by
  have le : n ≤ 256 := length ▸ Buffer.length_text_le
  have scanned : getLength fuel needle 256 = some (count n) :=
    length ▸ getLength_eq rfl (by decide) (by decide) (by omega)
  have filled : ¬ count n = 0 := by
    rw [← count_zero, count_inj (by omega) (by decide)]
    omega
  simp only [find, scanned, Option.bind_eq_bind, Option.bind_some, if_neg filled, store_int]
  rfl

/-- In front of the terminator the buffer is searched like the text. -/
theorem matchOf_text (some_ : needle.bytes.text 256 ≠ [])
    (short : (haystack.bytes.text 65536).length < 65536)
    (le : p ≤ (haystack.bytes.text 65536).length) :
    matchOf (needle.bytes.text 256) ((haystack.bytes.bytes 0 65536).drop p) =
      some (decide (needle.bytes.text 256 <+: (haystack.bytes.text 65536).drop p)) := by
  obtain ⟨rest, whole⟩ := Buffer.bytes_eq_text short
  rw [whole, List.drop_append_of_le_length le]
  refine matchOf_terminated (fun x mem => ?_) some_
  obtain ⟨i, below, rfl⟩ := Buffer.mem_text.mp mem
  exact Buffer.text_ne_zero below

/-- The loop of the needle's length counts its text. -/
theorem needleLength_eq (short : (needle.bytes.text 256).length < 256) (enough : 256 ≤ fuel) :
    exits (needleLengthBody needle) fuel 0 = some (count (needle.bytes.text 256).length) := by
  refine exits_along_leave (n := (needle.bytes.text 256).length) (p := count)
    (fun i below => ?_) ?_ (by omega)
  · have char : charReg (needle.bytes i) ≠ 0 := charReg_eq_zero.not.mpr (Buffer.text_ne_zero below)
    simp only [needleLengthBody, load_char (show i < 256 by omega) (by omega),
      Option.bind_eq_bind, Option.bind_some, if_neg char,
      count_succ]
    rfl
  · have null : charReg (needle.bytes (needle.bytes.text 256).length) = 0 :=
      charReg_eq_zero.mpr (Buffer.text_end short)
    simp only [needleLengthBody, load_char short (by omega), Option.bind_eq_bind,
      Option.bind_some, if_pos null]
    rfl

/-- The search goes on to the first place where the match loop does not fail a comparison. -/
theorem search_eq (le : n ≤ 256) (enough : 65536 < fuel) (before : ∀ q < p,
      matchOf (needle.bytes.bytes 0 n) ((haystack.bytes.bytes 0 65536).drop q) = some false) :
    (p < 65536 → matchOf (needle.bytes.bytes 0 n) ((haystack.bytes.bytes 0 65536).drop p) =
      some true →
      exits (searchBody fuel haystack needle (count n)) fuel 0 = some (count p)) ∧
    (p < 65536 → matchOf (needle.bytes.bytes 0 n) ((haystack.bytes.bytes 0 65536).drop p) = none →
      exits (searchBody fuel haystack needle (count n)) fuel 0 = none) ∧
    (p = 65536 → exits (searchBody fuel haystack needle (count n)) fuel 0 = some (-1)) := by
  have next : ∀ q < p, q < 65536 → searchBody fuel haystack needle (count n) (count q) =
    some (.inl (count (q + 1))) := by
    intro q below inside
    rw [searchBody_eq rfl le inside (by omega), before q below]
    rfl
  refine ⟨fun inside found => ?_, fun inside fails => ?_, fun ended => ?_⟩
  · refine exits_along_leave (p := count) (fun q below => next q below (by omega)) ?_
      (show p < fuel by omega)
    rw [searchBody_eq rfl le inside (by omega), found]
    rfl
  · refine exits_along_fail (p := count) (fun q below => next q below (by omega)) ?_
      (show p < fuel by omega)
    rw [searchBody_eq rfl le inside (by omega), fails]
    rfl
  · refine exits_along_leave (p := count) (fun q below => next q below (by omega)) ?_
      (show p < fuel by omega)
    rw [searchBody, ige_count (n := 65536) rfl (by omega) (by decide), decide_eq_true (by omega)]
    rfl

/-- One place of `contains` is matched against the needle. -/
theorem containsBody_eq (some_ : needle.bytes.text 256 ≠ [])
    (short : (haystack.bytes.text 65536).length < 65536)
    (below : p < (haystack.bytes.text 65536).length) (enough : 65536 < fuel) :
    containsBody fuel haystack needle (count (needle.bytes.text 256).length) (count p) =
      some (if needle.bytes.text 256 <+: (haystack.bytes.text 65536).drop p then .inr 1 else
        .inl (count (p + 1))) := by
  have le := @Buffer.length_text_le needle.bytes 256
  have char : charReg (haystack.bytes p) ≠ 0 := charReg_eq_zero.not.mpr (Buffer.text_ne_zero below)
  have matched := @matchBody_eq fuel 65536 256 (needle.bytes.text 256).length p haystack needle
    le (by omega) (by decide) (by decide) (by omega)
  rw [← Buffer.text_eq_bytes, matchOf_text some_ short below.le] at matched
  simp only [containsBody, load_char (show p < 65536 by omega) (by omega), Option.bind_eq_bind,
    Option.bind_some, if_neg char,
    matched, decide_eq_true_eq, count_succ]
  split_ifs <;> rfl

/-- `contains` where the needle is not empty. -/
theorem contains_eq (some_ : needle.bytes.text 256 ≠ [])
    (short : (needle.bytes.text 256).length < 256)
    (short' : (haystack.bytes.text 65536).length < 65536) (enough : 65536 < fuel) :
    ((∃ p, needle.bytes.text 256 <+: (haystack.bytes.text 65536).drop p) →
      contains fuel haystack needle result = some ⟨result.bytes.store 0 1 8⟩) ∧
    ((∀ p, ¬ needle.bytes.text 256 <+: (haystack.bytes.text 65536).drop p) →
      contains fuel haystack needle result = some ⟨result.bytes.store 0 0 8⟩) := by
  have filled : ¬ count (needle.bytes.text 256).length = 0 := by
    have positive := List.length_pos_iff.mpr some_
    rw [← count_zero, count_inj (by omega) (by decide)]
    omega
  have run : contains fuel haystack needle result =
      (exits (containsBody fuel haystack needle (count (needle.bytes.text 256).length)) fuel
        0).bind (result.store · 8 0) := by
    simp only [contains, needleLength_eq short (show 256 ≤ fuel by omega), Option.bind_eq_bind,
      Option.bind_some, if_neg filled]
  rw [run]
  constructor
  · intro occurs
    have found := Nat.find_spec occurs
    have inside : Nat.find occurs < (haystack.bytes.text 65536).length := by
      by_contra behind
      rw [List.drop_eq_nil_of_le (by omega), List.prefix_nil] at found
      exact some_ found
    have looped :
      exits (containsBody fuel haystack needle (count (needle.bytes.text 256).length)) fuel 0 =
        some 1 := by
      refine exits_along_leave (n := Nat.find occurs) (p := count) (fun i below => ?_) ?_ (by omega)
      · rw [containsBody_eq some_ short' (by omega) enough, if_neg (Nat.find_min occurs below)]
      · rw [containsBody_eq some_ short' inside enough, if_pos found]
    rw [looped]
    exact store_int _ _
  · intro missing
    have null : charReg (haystack.bytes (haystack.bytes.text 65536).length) = 0 :=
      charReg_eq_zero.mpr (Buffer.text_end short')
    have looped :
      exits (containsBody fuel haystack needle (count (needle.bytes.text 256).length)) fuel 0 =
        some 0 := by
      refine exits_along_leave (n := (haystack.bytes.text 65536).length) (p := count)
        (fun i below => ?_) ?_ (by omega)
      · rw [containsBody_eq some_ short' below enough, if_neg (missing i)]
      · simp only [containsBody, load_char short' (by omega), Option.bind_eq_bind,
          Option.bind_some, if_pos null]
        rfl
    rw [looped]
    exact store_int _ _

end Runs

section Agreement

variable {fuel : Nat} {haystack : Allocation 65536} {needle : Allocation 256}
  {index result : Allocation 8} {xs ys : List UInt8}

/-- The least place of a text where a needle occurs, or -1. -/
def FirstIndex (xs ys : List UInt8) (r : Register) : Prop :=
  (∃ p ≤ ys.length, r = count p ∧ xs <+: ys.drop p ∧ ∀ q < p, ¬ xs <+: ys.drop q) ∨ r = -1 ∧
    ∀ p, ¬ xs <+: ys.drop p

/-- `find` returns the first index of the needle in the text and frees only handles that were
made, and `contains` agrees with it. -/
def FindsFirst (fuel : Nat) (haystack : Allocation 65536) (needle : Allocation 256)
    (index result : Allocation 8) : Prop :=
  ∃ index' freed result', find fuel haystack needle index = some (index', freed) ∧ none ∉ freed ∧
    contains fuel haystack needle result = some result' ∧
    FirstIndex (needle.bytes.text 256) (haystack.bytes.text 65536) (intIn index') ∧
    (intIn result' = 1 ↔ intIn index' ≠ -1)

/-- A needle that is not empty and either occurs in the text, or has no start that matches anywhere
behind the text: neither the whole needle nor as much of it as the buffer has room for. -/
def Searchable (xs text buffer : List UInt8) : Prop :=
  xs ≠ [] ∧ ((∃ p, xs <+: text.drop p) ∨
    ∀ p, text.length < p → p < buffer.length → ¬ xs <+: buffer.drop p ∧ ¬ buffer.drop p <+: xs)

/-- No place is -1. -/
theorem count_ne_minus {p : Nat} (small : p < 2 ^ 63) : count p ≠ -1 := by
  intro same
  have counted := toInt_count small
  rw [same] at counted
  exact absurd counted (by rw [show (-1 : Register).toInt = -1 from rfl]; omega)

/-- The buffer stored one to holds one. -/
theorem intIn_store_one {a : Allocation 8} : intIn ⟨a.bytes.store 0 1 8⟩ = 1 := intIn_store 1 a

/-- The buffer stored zero to holds zero. -/
theorem intIn_store_zero {a : Allocation 8} : intIn ⟨a.bytes.store 0 0 8⟩ = 0 := intIn_store 0 a

/-- The searches agree exactly where the needle is searchable. -/
theorem findsFirst_iff (short : (haystack.bytes.text 65536).length < 65536)
    (short' : (needle.bytes.text 256).length < 256)
    (enough : 65536 < fuel) : FindsFirst fuel haystack needle index result ↔
      Searchable (needle.bytes.text 256) (haystack.bytes.text 65536)
        (haystack.bytes.bytes 0 65536) := by
  obtain ⟨xs, chars⟩ : ∃ xs, needle.bytes.text 256 = xs := ⟨_, rfl⟩
  obtain rfl | some_ := eq_or_ne xs []
  · refine iff_of_false ?_ fun searchable => searchable.1 chars
    rintro ⟨index', freed, result', found, made, -⟩
    rw [find_empty (congrArg List.length chars) enough] at found
    obtain ⟨-, rfl⟩ := Prod.mk.inj (Option.some.inj found)
    simp at made
  obtain ⟨contained, missing⟩ := @contains_eq fuel haystack needle result (chars ▸ some_) short'
    short enough
  have searched := @find_search fuel _ haystack needle index rfl
    (List.length_pos_iff.mpr (chars ▸ some_)) enough
  obtain ⟨n, length⟩ : ∃ n, (needle.bytes.text 256).length = n := ⟨_, rfl⟩
  have le : n ≤ 256 := length ▸ Buffer.length_text_le
  have bytes : needle.bytes.bytes 0 n = xs := by rw [← length, ← Buffer.text_eq_bytes, chars]
  have search := fun p => @search_eq fuel n p haystack needle le enough
  have inside := fun p => @matchOf_text p haystack needle (chars ▸ some_) short
  have whole : (haystack.bytes.bytes 0 65536).length = 65536 := Buffer.length_bytes
  unfold FindsFirst Searchable
  rw [searched, length]
  simp only [bytes, chars, whole] at search inside contained missing ⊢
  by_cases occurs : ∃ p, xs <+: (haystack.bytes.text 65536).drop p
  · have found := Nat.find_spec occurs
    have first : Nat.find occurs < (haystack.bytes.text 65536).length := by
      by_contra behind
      rw [List.drop_eq_nil_of_le (by omega), List.prefix_nil] at found
      exact some_ found
    have ended := (search (Nat.find occurs) fun q below => by
      rw [inside q (by omega), decide_eq_false (Nat.find_min occurs below)]).1 (by omega) (by
        rw [inside _ first.le, decide_eq_true found])
    refine iff_of_true ?_ ⟨some_, .inl occurs⟩
    rw [ended, contained occurs]
    refine ⟨_, _, _, rfl, by simp, rfl, ?_, ?_⟩
    · rw [intIn_store]
      exact .inl ⟨_, first.le, rfl, found, fun q below => Nat.find_min occurs below⟩
    · rw [intIn_store, intIn_store_one]
      exact iff_of_true rfl (count_ne_minus (by omega))
  · have absent : ∀ p, ¬ xs <+: (haystack.bytes.text 65536).drop p :=
      fun p found => occurs ⟨p, found⟩
    have quiet : ∀ p ≤ (haystack.bytes.text 65536).length,
      matchOf xs ((haystack.bytes.bytes 0 65536).drop p) = some false :=
      fun p le => by rw [inside p le, decide_eq_false (absent p)]
    rw [missing absent]
    by_cases stale : ∃ p, p < 65536 ∧ matchOf xs ((haystack.bytes.bytes 0 65536).drop p) ≠ some
      false
    · obtain ⟨below, event⟩ := Nat.find_spec stale
      have before : ∀ q < Nat.find stale, matchOf xs ((haystack.bytes.bytes 0 65536).drop q) =
        some false := by
        intro q earlier
        by_contra other
        exact Nat.find_min stale earlier ⟨by omega, other⟩
      have behind : (haystack.bytes.text 65536).length < Nat.find stale := by
        by_contra early
        exact event (quiet _ (by omega))
      refine iff_of_false ?_ ?_
      · rintro ⟨index', freed, result', found, -, -, first, -⟩
        obtain fails | found' :
          matchOf xs ((haystack.bytes.bytes 0 65536).drop (Nat.find stale)) = none ∨
            matchOf xs ((haystack.bytes.bytes 0 65536).drop (Nat.find stale)) = some true := by
          revert event
          cases matchOf xs ((haystack.bytes.bytes 0 65536).drop (Nat.find stale)) with
          | none => simp
          | some found => cases found <;> simp
        · rw [(search _ before).2.1 below fails] at found
          cases found
        · rw [(search _ before).1 below found'] at found
          obtain ⟨rfl, -⟩ := Prod.mk.inj (Option.some.inj found)
          rw [intIn_store] at first
          obtain ⟨p, -, -, starts, -⟩ | ⟨minus, -⟩ := first
          · exact absent p starts
          · exact count_ne_minus (by omega) minus
      · rintro ⟨-, occurs' | free⟩
        · exact occurs occurs'
        · exact event (matchOf_false.mpr (free _ behind below))
    · have all : ∀ q < 65536, matchOf xs ((haystack.bytes.bytes 0 65536).drop q) = some false := by
        intro q below
        by_contra other
        exact stale ⟨q, below, other⟩
      refine iff_of_true ?_ ⟨some_, .inr fun p _ below => matchOf_false.mp (all p below)⟩
      rw [(search 65536 all).2.2 rfl]
      refine ⟨_, _, _, rfl, by simp, rfl, ?_, ?_⟩
      · rw [intIn_store]
        exact .inr ⟨rfl, absent⟩
      · rw [intIn_store, intIn_store_zero]
        simp

/-- Two bytes in three. -/
theorem findsFirst_iff_ones : FindsFirst 70000 (onesUpTo 65536 3) (onesUpTo 256 2) (intOf 0)
    (intOf 0) ↔
    Searchable ((onesUpTo 256 2).bytes.text 256) ((onesUpTo 65536 3).bytes.text 65536)
      ((onesUpTo 65536 3).bytes.bytes 0 65536) :=
  findsFirst_iff (by rw [length_onesUpTo (by decide)]; decide)
    (by rw [length_onesUpTo (by decide)]; decide) (by decide)

/-- `a`, and a `b` behind the terminator. -/
def staleHaystack : Allocation 65536 := holding 65536 [97, 0, 98]

/-- Where the `b` behind the terminator is found. -/
theorem matchOf_staleHaystack (p : Nat) (inside : p < 65536) :
    matchOf [98] ((staleHaystack.bytes.bytes 0 65536).drop p) =
      some ([97, 0, 98].getD p 0 == (98 : UInt8)) := by
  have parts : (staleHaystack.bytes.bytes 0 65536).drop p =
      [97, 0, 98].getD p 0 :: (staleHaystack.bytes.bytes 0 65536).drop (p + 1) := by
    rw [List.drop_eq_getElem_cons (by simpa using inside), Buffer.getElem_bytes, Nat.zero_add]
    rfl
  rw [parts, matchOf, matchOf]
  split_ifs with same
  · rw [same]
    rfl
  · simpa using same

/-- The stale `b` is found. -/
theorem find_staleHaystack :
    ¬ ∃ fuel > 65536, FindsFirst fuel staleHaystack (holding 256 [98]) (intOf 0) (intOf 0) := by
  rintro ⟨fuel, enough, index', freed, result', found, -, -, first, -⟩
  have needle : (holding 256 [98]).bytes.text 256 = [98] := text_holding (by simp) (by simp)
  have searched := @find_search fuel 1 staleHaystack (holding 256 [98]) (intOf 0)
    (by rw [needle]; rfl)
    Nat.one_pos enough
  have stale :=
    (@search_eq fuel 1 2 staleHaystack (holding 256 [98]) (by omega) enough fun q below => by
    rw [show (holding 256 [98]).bytes.bytes 0 1 = [98] from rfl, matchOf_staleHaystack q (by omega)]
    interval_cases q <;> rfl).1 (by omega) (matchOf_staleHaystack 2 (by omega))
  rw [searched, stale] at found
  obtain ⟨rfl, -⟩ := Prod.mk.inj (Option.some.inj found)
  rw [intIn_store, needle] at first
  obtain ⟨p, le, same, starts, -⟩ | ⟨minus, -⟩ := first
  · have room := @Buffer.length_text_le staleHaystack.bytes 65536
    obtain rfl : 2 = p := (count_inj (by omega) (by omega)).mp same
    have long := starts.length_le
    rw [List.length_drop, List.length_singleton] at long
    exact Buffer.text_ne_zero (show 1 < (staleHaystack.bytes.text 65536).length by omega) rfl
  · exact count_ne_minus (by omega) minus

end Agreement

end Sigil.Stdlib
