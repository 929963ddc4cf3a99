import Sigil.Flow.Loops

/-!
# Texts in buffers

Loops that are left with a result, and the text of a buffer: its bytes before the first null.
-/

namespace Flow

section Exits

variable {σ ε : Type*} {body : σ → Option (σ ⊕ ε)} {fuel m n : Nat} {s s' : σ} {e : ε} {p : Nat → σ}

/-- Rounds of a body that goes on with a state or leaves the loop with a result. -/
def exits (body : σ → Option (σ ⊕ ε)) : Nat → σ → Option ε
  | 0, _ => none
  | fuel + 1, s =>
      match body s with
      | none => none
      | some (.inl s') => exits body fuel s'
      | some (.inr e) => some e

/-- A round that goes on. -/
theorem exits_next (next : body s = some (.inl s')) :
    exits body (fuel + 1) s = exits body fuel s' := by
  rw [exits, next]

/-- A round that leaves the loop. -/
theorem exits_leave (leave : body s = some (.inr e)) : exits body (fuel + 1) s = some e := by
  rw [exits, leave]

/-- A round that fails. -/
theorem exits_fail (fail : body s = none) : exits body fuel s = none := by
  cases fuel with
  | zero => rfl
  | succ fuel => rw [exits, fail]

/-- A loop that goes along a path of states is where the path is. -/
theorem exits_along (next : ∀ i, m ≤ i → i < n → body (p i) = some (.inl (p (i + 1)))) (le : m ≤ n)
    (enough : n - m ≤ fuel) : exits body fuel (p m) = exits body (fuel - (n - m)) (p n) := by
  induction n, le using Nat.le_induction with
  | base => simp
  | succ n le ih =>
      rw [ih (fun i from_ below => next i from_ (Nat.lt_succ_of_lt below)) (by omega),
        show fuel - (n - m) = fuel - (n + 1 - m) + 1 by
          omega, exits_next (next n le (Nat.lt_succ_self n))]

/-- A loop that goes along a path is left at its end. -/
theorem exits_along_leave (next : ∀ i < n, body (p i) = some (.inl (p (i + 1))))
    (leave : body (p n) = some (.inr e)) (enough : n < fuel) : exits body fuel (p 0) = some e := by
  rw [exits_along (fun i _ below => next i below) (Nat.zero_le n) (by omega),
    show fuel - (n - 0) = fuel - n - 1 + 1 by omega, exits_leave leave]

/-- A loop that fails after some rounds. -/
theorem exits_along_fail (next : ∀ i < n, body (p i) = some (.inl (p (i + 1))))
    (fail : body (p n) = none) (enough : n < fuel) : exits body fuel (p 0) = none := by
  rw [exits_along (fun i _ below => next i below) (Nat.zero_le n) (by omega), exits_fail fail]

end Exits

namespace Buffer

variable {b b' : Buffer} {off size m n i : Nat}

/-- A byte of a range. -/
theorem getElem_bytes (below : i < (b.bytes off n).length) : (b.bytes off n)[i] = b (off + i) := by
  simp [bytes]

/-- The beginning of a range. -/
theorem take_bytes (le : i ≤ n) : (b.bytes off n).take i = b.bytes off i := by
  rw [bytes, ← List.map_take, List.take_range, Nat.min_eq_left le]
  rfl

/-- The end of a range. -/
theorem drop_bytes : (b.bytes off n).drop i = b.bytes (off + i) (n - i) := by
  refine List.ext_getElem (by simp) fun j below below' => ?_
  rw [List.getElem_drop, getElem_bytes, getElem_bytes, Nat.add_assoc]

/-- What a range begins with. -/
theorem starts_bytes_iff {l : List UInt8} :
    l <+: b.bytes off n ↔ l.length ≤ n ∧ l = b.bytes off l.length := by
  rw [List.prefix_iff_eq_take]
  constructor
  · intro same
    have le : l.length ≤ n := by
      have lengths := congrArg List.length same
      rw [List.length_take, length_bytes] at lengths
      omega
    exact ⟨le, same.trans (take_bytes le)⟩
  · rintro ⟨le, same⟩
    exact same.trans (take_bytes le).symm

/-- Bytes that start what is left of a text from a place on. -/
theorem starts_rest_iff : b'.bytes 0 m ≠ [] ∧ b'.bytes 0 m <+: b.bytes i (n - i) ↔
    0 < m ∧ m ≤ n - i ∧ b'.bytes 0 m = b.bytes i m := by
  rw [starts_bytes_iff, length_bytes, ← List.length_pos_iff, length_bytes]

/-- A range and the byte behind it. -/
theorem bytes_succ : b.bytes off (n + 1) = b.bytes off n ++ [b (off + n)] := by
  rw [bytes_append]
  simp [bytes]

/-- A byte behind others. -/
theorem bytes_update_last {x : UInt8} : bytes (Function.update b n x) 0 (n + 1) =
    b.bytes 0 n ++ [x] := by
  rw [bytes_succ, bytes_update_of_outside (by omega), Nat.zero_add, Function.update_self]

/-- A range is its first byte and the rest. -/
theorem bytes_cons : b.bytes off (n + 1) = b off :: b.bytes (off + 1) n := by
  rw [Nat.add_comm, bytes_append]
  simp [bytes]

/-- The text in a buffer: its bytes before the first null, all of them where there is none. -/
def text (b : Buffer) (size : Nat) : List UInt8 := (b.bytes 0 size).takeWhile (· ≠ 0)

/-- A text is the beginning of its buffer. -/
theorem text_starts : b.text size <+: b.bytes 0 size := List.takeWhile_prefix _

/-- A text fits its buffer. -/
theorem length_text_le : (b.text size).length ≤ size := by
  have le := (@text_starts b size).length_le
  rwa [length_bytes] at le

/-- A text is a range from the start. -/
theorem text_eq_bytes : b.text size = b.bytes 0 (b.text size).length := by
  conv_lhs => rw [List.prefix_iff_eq_take.mp (@text_starts b size), take_bytes length_text_le]

/-- A byte of a text. -/
theorem getElem_text (below : i < (b.text size).length) : (b.text size)[i] = b i := by
  rw [List.IsPrefix.getElem text_starts below, getElem_bytes, Nat.zero_add]

/-- A byte of a text, if there is one. -/
theorem getElem?_text (below : i < (b.text size).length) : (b.text size)[i]? = some (b i) := by
  rw [List.getElem?_eq_getElem below, getElem_text]

/-- The bytes of a text. -/
theorem mem_text {c : UInt8} : c ∈ b.text size ↔ ∃ i < (b.text size).length, b i = c := by
  rw [List.mem_iff_getElem]
  constructor
  · rintro ⟨i, below, at_⟩
    exact ⟨i, below, (getElem_text below).symm.trans at_⟩
  · rintro ⟨i, below, at_⟩
    exact ⟨i, below, (getElem_text below).trans at_⟩

/-- No byte of a text is null. -/
theorem text_ne_zero (below : i < (b.text size).length) : b i ≠ 0 := by
  have mem : (b.text size)[i] ∈ (b.bytes 0 size).takeWhile (· ≠ 0) := List.getElem_mem below
  rw [getElem_text] at mem
  simpa using List.mem_takeWhile_imp mem

/-- A null stands behind a text that does not fill its buffer. -/
theorem text_end (short : (b.text size).length < size) : b (b.text size).length = 0 := by
  by_contra nonzero
  have whole : b.bytes 0 size = b.text size ++ (b.bytes 0 size).dropWhile (· ≠ 0) :=
    List.takeWhile_append_dropWhile.symm
  have rest := congrArg (fun l => l.drop (b.text size).length) whole
  simp only [drop_bytes, List.drop_left, Nat.zero_add] at rest
  obtain ⟨k, more⟩ : ∃ k, size - (b.text size).length = k + 1 :=
    ⟨size - (b.text size).length - 1, by omega⟩
  rw [more, bytes_cons] at rest
  have first := List.head?_dropWhile_not (· ≠ 0) (b.bytes 0 size)
  rw [← rest] at first
  exact nonzero (by simpa using first)

/-- A text that ends in front of the end of the buffer. -/
theorem bytes_eq_text (short : (b.text size).length < size) :
    ∃ rest, b.bytes 0 size = b.text size ++ 0 :: rest := by
  obtain ⟨k, more⟩ : ∃ k, size = (b.text size).length + (k + 1) :=
    ⟨size - (b.text size).length - 1, by omega⟩
  refine ⟨b.bytes ((b.text size).length + 1) k, ?_⟩
  have split := @bytes_append b 0 (b.text size).length (k + 1)
  rw [← more, ← text_eq_bytes, Nat.zero_add, bytes_cons, text_end short] at split
  exact split

/-- Where the first null is. -/
theorem length_text (le : n ≤ size) (nonzero : ∀ i < n, b i ≠ 0) (ended : n < size → b n = 0) :
    (b.text size).length = n := by
  obtain less | equal | more := Nat.lt_trichotomy (b.text size).length n
  · exact absurd (text_end (by omega)) (nonzero _ less)
  · exact equal
  · exact absurd (ended (more.trans_le length_text_le)) (text_ne_zero more)

end Buffer

end Flow
