import Sigil.Flow.Pieces
import Sigil.Stdlib.Matching

/-!
# The behavior `split`

The pieces of a text between the occurrencesOf of a delimiter, as pairs of an offset and a length
behind their number.
-/

namespace Sigil.Stdlib

open Flow

/-- The registers and the parts of the splitting loop. -/
structure Splitting where
  count : Register
  part_start : Register
  pos : Register
  parts : Allocation 8192

/-- `add_part` and `add_final`: the pair of a piece that ends at a place -/
def addPart (end_ : Register) (s : Splitting) : Option (Allocation 8192) := do
  let part_len := end_ - s.part_start
  let parts_offset := s.count * 16
  let parts_offset := parts_offset + 8
  let parts ← s.parts.store s.part_start 8 parts_offset
  let offset_plus_8 := parts_offset + 8
  parts.store part_len 8 offset_plus_8

/-- `scan_loop` to `no_match_here` -/
def splitBody (fuel : Nat) (data : Allocation 65536) (delimiter : Allocation 256)
    (delim_len data_len : Register)
    (s : Splitting) : Option (Splitting ⊕ Splitting) := do
  if ige s.pos data_len then return .inr s
  let remaining := data_len - s.pos
  if ilt remaining delim_len then return .inl { s with pos := s.pos + 1 }
  if ← exits (matchBody data delimiter delim_len s.pos) fuel 0 then
    if ige s.count 511 then return .inr s
    let parts ← addPart s.pos s
    let new_pos := s.pos + delim_len
    return .inl ⟨s.count + 1, new_pos, new_pos, parts⟩
  return .inl { s with pos := s.pos + 1 }

/-- `add_final_part` to `store_count` -/
def addFinalPart (data_len : Register) (s : Splitting) : Option (Allocation 8192) := do
  if ige s.count 511 then s.parts.store s.count 8 0
  else
    let parts ← addPart data_len s
    parts.store (s.count + 1) 8 0

def split (fuel : Nat) (data : Allocation 65536) (delimiter : Allocation 256)
    (parts : Allocation 8192) : Option (Allocation 8192) := do
  let delim_len ← getLength fuel delimiter 256
  let data_len ← getLength fuel data 65536
  if delim_len = 0 then
    let parts ← parts.store 1 8 0
    let parts ← parts.store 0 8 8
    parts.store data_len 8 16
  else
    let s ← exits (splitBody fuel data delimiter delim_len data_len) fuel ⟨0, 0, 0, parts⟩
    addFinalPart data_len s

section Pairs

variable {b : Buffer} {d j k st l v : Nat} {ls : List Nat}

/-- The pair of the piece `k`. -/
def pairAt (b : Buffer) (k : Nat) : Nat × Nat := (b.load (8 + 16 * k) 8, b.load (16 + 16 * k) 8)

def storePair (b : Buffer) (k st l : Nat) : Buffer :=
    (b.store (8 + 16 * k) st 8).store (16 + 16 * k) l 8

/-- The pair stored is the pair there. -/
theorem pairAt_storePair (small : st < 2 ^ 63) (small' : l < 2 ^ 63) :
    pairAt (storePair b k st l) k = (st, l) := by
  rw [pairAt, storePair, Buffer.load_store_of_outside (by omega), Buffer.load_store (by omega),
    Buffer.load_store (by omega)]

/-- A pair stored leaves the others. -/
theorem pairAt_storePair_of_ne (other : j ≠ k) : pairAt (storePair b k st l) j = pairAt b j := by
  rw [pairAt, storePair, Buffer.load_store_of_outside (by omega),
    Buffer.load_store_of_outside (by omega),
    Buffer.load_store_of_outside (by omega), Buffer.load_store_of_outside (by omega)]
  rfl

/-- The number of parts stored leaves the pairs. -/
theorem pairAt_store : pairAt (b.store 0 v 8) k = pairAt b k := by
  rw [pairAt, Buffer.load_store_of_outside (by omega), Buffer.load_store_of_outside (by omega)]
  rfl

/-- The ranges of pieces of some lengths with `d` bytes between them. -/
def ranges (d st : Nat) : List Nat → List (Nat × Nat)
  | [] => []
  | l :: ls => (st, l) :: ranges d (st + l + d) ls

/-- The ranges of the pieces hold the pieces. -/
theorem map_ranges {sep piece : List UInt8} {pieces : List (List UInt8)}
    (whole : b.bytes st (sep.intercalate (piece :: pieces)).length =
      sep.intercalate (piece :: pieces)) :
    (ranges sep.length st ((piece :: pieces).map List.length)).map
      (fun range => b.bytes range.1 range.2) = piece :: pieces := by
  induction pieces generalizing piece st with
  | nil =>
      rw [List.intercalate_singleton] at whole
      exact congrArg (· :: []) whole
  | cons next pieces ih =>
      rw [List.intercalate_cons_cons, List.length_append, List.length_append,
        Buffer.bytes_append, Buffer.bytes_append] at whole
      obtain ⟨front, rest⟩ := List.append_inj whole (by simp)
      obtain ⟨head, -⟩ := List.append_inj front (by simp)
      rw [← Nat.add_assoc] at rest
      rw [List.map_cons, ranges, List.map_cons, ih rest]
      exact congrArg (· :: next :: pieces) head

end Pairs

section Scanning

variable {fuel fuel' n m p st k : Nat} {data : Allocation 65536} {delimiter : Allocation 256}
  {parts : Allocation 8192}

/-- A part is stored as its start and its length. -/
theorem addPart_eq {e : Nat} {pos : Register} (le : st ≤ e) (small : e < 2 ^ 62) (room : k < 511) :
    addPart (count e) ⟨count k, count st, pos, parts⟩ =
      some ⟨storePair parts.bytes k st (e - st)⟩ := by
  have offset : count k * 16 + 8 = count (8 + 16 * k) := by
    rw [show count k * 16 = count (k * 16) from (BitVec.ofNat_mul k 16).symm,
      show (8 : Register) = count 8 from rfl, count_add]
    congr 1
    omega
  have next : count (8 + 16 * k) + 8 = count (16 + 16 * k) := by
    rw [show (8 : Register) = count 8 from rfl, count_add]
    congr 1
    omega
  have place : (count (8 + 16 * k)).toNat = 8 + 16 * k := toNat_count (by omega)
  have place' : (count (16 + 16 * k)).toNat = 16 + 16 * k := toNat_count (by omega)
  have first := @Allocation.store_inside 8192 8 parts (count (8 + 16 * k)) (count st) (by omega)
  have second := @Allocation.store_inside 8192 8 ⟨parts.bytes.store (8 + 16 * k) st 8⟩
    (count (16 + 16 * k)) (count (e - st)) (by omega)
  rw [place, toNat_count (by omega)] at first
  rw [place', toNat_count (by omega)] at second
  simp only [addPart, offset, next, count_sub le, first, second, Option.bind_eq_bind,
    Option.bind_some]
  rfl

/-- One turn of the scan. -/
theorem splitBody_eq (below : p < n) (le : n ≤ 65536) (le' : m ≤ 256) (from_ : st ≤ p)
    (room : k < 511) (enough : 65536 < fuel) :
    splitBody fuel data delimiter (count m) (count n) ⟨count k, count st, count p, parts⟩ =
      some (.inl (if m ≤ n - p ∧ delimiter.bytes.bytes 0 m = data.bytes.bytes p m
        then ⟨count (k + 1), count (p + m), count (p + m), ⟨storePair parts.bytes k st (p - st)⟩⟩
        else ⟨count k, count st, count (p + 1), parts⟩)) := by
  have more : ige (count p) (count n) = false := ige_counts_before (by omega) (by omega)
  have full : ige (count k) 511 = false := ige_before (n := 511) rfl (by omega) (by decide)
  simp only [splitBody, more, count_sub below.le,
    ilt_counts (show n - p < 2 ^ 63 by omega) (show m < 2 ^ 63 by omega), count_succ,
    count_add, full, addPart_eq from_ (show p < 2 ^ 62 by omega) room, decide_eq_true_eq,
      Bool.false_eq_true, if_false]
  by_cases short : n - p < m
  · rw [if_pos short, if_neg fun found => absurd found.1 (by omega)]
    rfl
  rw [if_neg short, matchBody_inside le' (by omega) (by decide) (by decide) (by omega)]
  by_cases same : delimiter.bytes.bytes 0 m = data.bytes.bytes p m
  · rw [decide_eq_true same, if_pos ⟨by omega, same⟩]
    rfl
  · rw [decide_eq_false same, if_neg fun found => same found.2]
    rfl

/-- The scan from a place on: what it adds are the ranges of the pieces of the rest, the first
of them from its start on. -/
theorem split_from {head : List UInt8} {rest : List (List UInt8)} (from_ : st ≤ p)
    (below : p ≤ n) (le : n ≤ 65536) (some_ : 0 < m)
    (le' : m ≤ 256) (enough : 65536 < fuel) (turns : n - p < fuel')
    (cut : piecesOf (delimiter.bytes.bytes 0 m) (data.bytes.bytes p (n - p)) = head :: rest)
      (room : k + rest.length < 511) :
    ∃ s parts', exits (splitBody fuel data delimiter (count m) (count n)) fuel'
      ⟨count k, count st, count p, parts⟩ = some s ∧
      addFinalPart (count n) s = some parts' ∧ parts'.bytes.load 0 8 = k + 1 + rest.length ∧
      (∀ j < k, pairAt parts'.bytes j = pairAt parts.bytes j) ∧
      (List.range (rest.length + 1)).map (fun j => pairAt parts'.bytes (k + j)) =
        ranges m st ((p - st + head.length) :: rest.map List.length) := by
  induction fuel' generalizing p st k parts head rest with
  | zero => exact absurd turns (Nat.not_lt_zero _)
  | succ fuel' ih =>
      obtain more | rfl := Nat.lt_or_eq_of_le below
      · have turn := @splitBody_eq fuel n m p st k data delimiter parts more le le' from_
          (by omega) enough
        by_cases found : m ≤ n - p ∧ delimiter.bytes.bytes 0 m = data.bytes.bytes p m
        · have whole : data.bytes.bytes p (n - p) =
            delimiter.bytes.bytes 0 m ++ data.bytes.bytes (p + m) (n - (p + m)) := by
            rw [found.2, ← Buffer.bytes_append]
            congr 1
            omega
          obtain ⟨next, rest', cut'⟩ := @exists_piecesOf _ _ (delimiter.bytes.bytes 0 m)
            (data.bytes.bytes (p + m) (n - (p + m)))
          rw [whole, piecesOf_found (List.length_pos_iff.mp (by simpa using some_)), cut'] at cut
          obtain ⟨rfl, rfl⟩ := List.cons.inj cut
          rw [List.length_cons] at room
          rw [if_pos found] at turn
          obtain ⟨s, parts', looped, finished, number, kept, added⟩ := @ih (p + m) (p + m) (k + 1)
            ⟨storePair parts.bytes k st (p - st)⟩ next rest' (Nat.le_refl _) (by omega)
              (by omega) cut' (by omega)
          refine ⟨s, parts', (exits_next turn).trans looped, finished, ?_, fun j earlier => ?_, ?_⟩
          · rw [number, List.length_cons]
            omega
          · rw [kept j (by omega), pairAt_storePair_of_ne (by omega)]
          · have first : pairAt parts'.bytes (k + 0) = (st, p - st) := by
              rw [Nat.add_zero, kept k (Nat.lt_succ_self k), pairAt_storePair (by omega) (by omega)]
            have later : (List.range (rest'.length + 1)).map
              ((fun j => pairAt parts'.bytes (k + j)) ∘ Nat.succ) =
                ranges m (p + m) (next.length :: rest'.map List.length) := by
              rw [Nat.sub_self, Nat.zero_add] at added
              rw [← added]
              refine List.map_congr_left fun j _ => ?_
              rw [Function.comp_apply, Nat.succ_eq_add_one, Nat.add_right_comm, Nat.add_assoc]
            have split : ranges m st ((p - st) :: (next :: rest').map List.length) =
                (st, p - st) :: ranges m (st + (p - st) + m)
                  ((next :: rest').map List.length) := rfl
            rw [List.length_cons, List.range_succ_eq_map, List.map_cons, List.map_map, first,
              later, List.length_nil, Nat.add_zero,
              split, Nat.add_sub_cancel' from_]
            rfl
        · have other : ¬ (delimiter.bytes.bytes 0 m ≠ [] ∧ delimiter.bytes.bytes 0 m <+:
            data.bytes.bytes p (n - p)) := by
            rw [Buffer.starts_rest_iff]
            exact fun starts => found starts.2
          have whole : data.bytes.bytes p (n - p) =
            data.bytes p :: data.bytes.bytes (p + 1) (n - (p + 1)) := by
            rw [← Buffer.bytes_cons]
            congr 1
            omega
          obtain ⟨piece, pieces, cut'⟩ := @exists_piecesOf _ _ (delimiter.bytes.bytes 0 m)
            (data.bytes.bytes (p + 1) (n - (p + 1)))
          rw [whole] at other cut
          rw [piecesOf_other other, cut', List.modifyHead_cons] at cut
          obtain ⟨rfl, rfl⟩ := List.cons.inj cut
          rw [if_neg found] at turn
          obtain ⟨s, parts', looped, finished, number, kept, added⟩ :=
            @ih (p + 1) st k parts piece pieces (by omega) more (by omega)
            cut' room
          refine ⟨s, parts', (exits_next turn).trans looped, finished, number, kept, added.trans ?_⟩
          rw [List.length_cons, show p + 1 - st + piece.length =
            p - st + (piece.length + 1) by omega]
      · have done : splitBody fuel data delimiter (count m) (count p)
          ⟨count k, count st, count p, parts⟩ =
            some (.inr ⟨count k, count st, count p, parts⟩) := by
          simp only [splitBody, ige_counts (show p < 2 ^ 63 by omega) (show p < 2 ^ 63 by omega)]
          rw [decide_eq_true (Nat.le_refl p)]
          rfl
        rw [Nat.sub_self, show data.bytes.bytes p 0 = [] from rfl, piecesOf_nil] at cut
        obtain ⟨rfl, rfl⟩ := List.cons.inj cut
        have full : ige (count k) 511 = false := ige_before (n := 511) rfl (by omega) (by decide)
        have number := @Allocation.store_inside 8192 8 ⟨storePair parts.bytes k st (p - st)⟩ 0
          (count (k + 1)) (by decide)
        rw [toNat_count (by omega)] at number
        refine ⟨_, ⟨(storePair parts.bytes k st (p - st)).store 0 (k + 1) 8⟩, exits_leave done,
          ?_, ?_, ?_⟩
        · simp only [addFinalPart, full, addPart_eq from_ (show p < 2 ^ 62 by omega)
            (Nat.lt_of_le_of_lt (Nat.le_add_right k _) room), count_succ, Bool.false_eq_true,
              if_false,
            Option.bind_eq_bind, Option.bind_some]
          exact number
        · exact Buffer.load_store (by omega)
        · refine ⟨fun j earlier => ?_, ?_⟩
          · exact pairAt_store.trans (pairAt_storePair_of_ne (by omega))
          · refine congrArg (· :: []) (pairAt_store.trans ?_)
            rw [Nat.add_zero]
            exact pairAt_storePair (by omega) (by omega)

end Scanning

section Pieces

variable {fuel : Nat} {data : Allocation 65536} {delimiter : Allocation 256}
  {parts : Allocation 8192}

/-- The pieces that the output of `split` describes. -/
def describedPieces (data : Allocation 65536) (parts : Allocation 8192) : List (List UInt8) :=
  (List.range (parts.bytes.load 0 8)).map fun k =>
    data.bytes.bytes (pairAt parts.bytes k).1 (pairAt parts.bytes k).2

/-- `split` describes consecutive pieces without the delimiter that make up the text again. -/
theorem split_pieces (some_ : delimiter.bytes.text 256 ≠ [])
    (few : occurrencesOf (delimiter.bytes.text 256) (data.bytes.text 65536) ≤ 510)
      (enough : 65536 < fuel) :
    ∃ parts', split fuel data delimiter parts = some parts' ∧
      (delimiter.bytes.text 256).intercalate (describedPieces data parts') = data.bytes.text 65536 ∧
      (∀ piece ∈ describedPieces data parts', ¬ delimiter.bytes.text 256 <:+: piece) ∧
      (List.range (parts'.bytes.load 0 8)).map (pairAt parts'.bytes) =
        ranges (delimiter.bytes.text 256).length 0
          ((describedPieces data parts').map List.length) := by
  obtain ⟨m, length⟩ : ∃ m, (delimiter.bytes.text 256).length = m := ⟨_, rfl⟩
  obtain ⟨n, length'⟩ : ∃ n, (data.bytes.text 65536).length = n := ⟨_, rfl⟩
  have scanned : getLength fuel delimiter 256 = some (count m) :=
    length ▸ getLength_eq rfl (by decide) (by decide) (by omega)
  have scanned' : getLength fuel data 65536 = some (count n) :=
    length' ▸ getLength_eq rfl (by decide) (by decide) enough
  have le : m ≤ 256 := length ▸ Buffer.length_text_le
  have le' : n ≤ 65536 := length' ▸ Buffer.length_text_le
  have positive : 0 < m := length ▸ List.length_pos_iff.mpr some_
  have text : delimiter.bytes.bytes 0 m = delimiter.bytes.text 256 := by
    rw [← length, ← Buffer.text_eq_bytes]
  have text' : data.bytes.bytes 0 n = data.bytes.text 65536 := by
    rw [← length', ← Buffer.text_eq_bytes]
  obtain ⟨head, rest, cut⟩ := @exists_piecesOf _ _ (delimiter.bytes.text 256)
    (data.bytes.text 65536)
  have number : rest.length ≤ 510 := by simpa [occurrencesOf, cut] using few
  obtain ⟨s, parts', looped, finished, counted, -, added⟩ :=
    @split_from fuel fuel n m 0 0 0 data delimiter parts head rest
    (Nat.le_refl 0) (Nat.zero_le n) le' positive le enough (by omega)
      (by rw [text, Nat.sub_zero, text', cut]) (by omega)
  have filled : ¬ count m = 0 := by
    rw [← count_zero, count_inj (by omega) (by decide)]
    omega
  have start : exits (splitBody fuel data delimiter (count m) (count n)) fuel ⟨0, 0, 0, parts⟩ =
    some s := looped
  have total : parts'.bytes.load 0 8 = rest.length + 1 := by omega
  have pairs : (List.range (parts'.bytes.load 0 8)).map (pairAt parts'.bytes) =
    ranges m 0 ((head :: rest).map List.length) := by
    simpa [total] using added
  have whole := @intercalate_piecesOf _ _ (delimiter.bytes.text 256) (data.bytes.text 65536)
  have described : describedPieces data parts' = head :: rest := by
    have mapped := congrArg (List.map fun range : Nat × Nat => data.bytes.bytes range.1 range.2)
      pairs
    rw [List.map_map, ← length, map_ranges (by rw [← cut, whole, length', text'])] at mapped
    exact mapped
  refine ⟨parts', ?_, ?_, ?_, ?_⟩
  · simp only [split, scanned, scanned', start, Option.bind_eq_bind, Option.bind_some,
      if_neg filled]
    exact finished
  · rw [described, ← cut, whole]
  · rw [described, ← cut]
    exact not_infix_piecesOf some_
  · rw [described, pairs, length]

/-- `a,b,,c` -/
def commaText : List UInt8 := [97, 44, 98, 44, 44, 99]

/-- A text with commas. -/
theorem split_pieces_commas : ∃ parts', split 70000 (holding 65536 commaText) (holding 256 [44])
    ⟨fun _ => 0⟩ = some parts' ∧
    [44].intercalate (describedPieces (holding 65536 commaText) parts') = commaText ∧
    (∀ piece ∈ describedPieces (holding 65536 commaText) parts', ¬ [44] <:+: piece) ∧
    (List.range (parts'.bytes.load 0 8)).map (pairAt parts'.bytes) =
      ranges 1 0 ((describedPieces (holding 65536 commaText) parts').map List.length) := by
  have comma : (holding 256 [44]).bytes.text 256 = [44] := text_holding (by decide) (by simp)
  have text : (holding 65536 commaText).bytes.text 65536 = commaText :=
    text_holding (by simp [commaText]) (by simp [commaText])
  have few : occurrencesOf [44] commaText ≤ 510 := by simp [occurrencesOf, commaText, piecesOf]
  have pieces := @split_pieces 70000 (holding 65536 commaText) (holding 256 [44]) ⟨fun _ => 0⟩
    (by rw [comma]; decide)
    (by rw [comma, text]; exact few) (by decide)
  rwa [comma, text] at pieces

end Pieces

end Sigil.Stdlib
