import Sigil.Stdlib.Scan

/-!
# Socket addresses

`parse-addr` packs the groups of a dotted decimal text into a register, `make-sockaddr` writes
the packed octets.
A group is shifted by eight places for each dot in front of it.
-/

namespace Sigil.Stdlib

open Flow

/-- `SHL`: a shift by the width of the register or more has no value. -/
def shl (x s : Register) : Option Register := if s.toNat < 64 then some (x <<< s.toNat) else none

/-- The registers of the parsing loop. -/
structure AddrParsing where
  acc : Register
  octet : Register
  shift : Register
  i : Register
  count : Register

/-- The blocks `loop` to `dotsep` -/
def parseAddrBody (s : Allocation 256) (r : AddrParsing) : Option (AddrParsing ⊕ AddrParsing) := do
  let c ← s.load 1 r.i
  if c = 0 then return .inr r
  let cu := c &&& 255
  if cu = 46 then
    let contrib ← shl r.octet r.shift
    return .inl { acc := r.acc ||| contrib, octet := 0, shift := r.shift + 8, i := r.i + 1, count := r.count + 1 }
  else
    let d := cu - 48
    let octet := r.octet * 10
    let octet := octet + d
    return .inl { r with octet := octet, i := r.i + 1 }

/-- The block `finish`: what is packed, and the number of groups -/
def finishAddr (r : AddrParsing) : Option (Register × Register) := do
  let contrib ← shl r.octet r.shift
  return (r.acc ||| contrib, r.count + 1)

/-- The behavior `parse-addr`. -/
def parseAddr (fuel : Nat) (s : Allocation 256) (ip ok : Allocation 8) :
    Option (Allocation 8 × Allocation 8) := do
  let r ← exits (parseAddrBody s) fuel ⟨0, 0, 0, 0, 0⟩
  let (acc, count) ← finishAddr r
  let ip ← ip.store acc 8 0
  let isok := flag (count = 4)
  let ok ← ok.store isok 8 0
  return (ip, ok)

/-- The behavior `make-sockaddr`. -/
def makeSockaddr (port ip : Allocation 8) (addr : Allocation 128) (addr_len : Allocation 8) :
    Option (Allocation 128 × Allocation 8) := do
  let portv ← port.load 8 0
  let ipv ← ip.load 8 0
  let addr ← addr.store 2 1 0
  let addr ← addr.store 0 1 1
  let hi := portv >>> 8
  let hib := hi &&& 255
  let lob := portv &&& 255
  let addr ← addr.store hib 1 2
  let addr ← addr.store lob 1 3
  let b0 := ipv &&& 255
  let b1 := (ipv >>> 8) &&& 255
  let b2 := (ipv >>> 16) &&& 255
  let b3 := (ipv >>> 24) &&& 255
  let addr ← addr.store b0 1 4
  let addr ← addr.store b1 1 5
  let addr ← addr.store b2 1 6
  let addr ← addr.store b3 1 7
  let addr ← addr.store 0 8 8
  let addr_len ← addr_len.store 16 8 0
  return (addr, addr_len)

section Groups

/-- A decimal digit or a dot. -/
def AddrChar (c : UInt8) : Prop := c = 46 ∨ (48 ≤ c.toNat ∧ c.toNat ≤ 57)

/-- A group read behind a number. -/
def groupFrom (cur : Nat) (group : List UInt8) : Nat :=
    group.foldl (fun v c => v * 10 + (c.toNat - 48)) cur

/-- The decimal value of a group. -/
def groupValue (group : List UInt8) : Nat := groupFrom 0 group

/-- The values of the groups of a text, the first of them read behind a number. -/
def groupsFrom (cur : Nat) : List UInt8 → List Nat
  | [] => [cur]
  | c :: t => if c = 46 then cur :: groupsFrom 0 t else groupsFrom (cur * 10 + (c.toNat - 48)) t

/-- The first group of the text goes on with the digits read so far. -/
theorem groupsFrom_eq (cur : Nat) (t : List UInt8) :
    ∃ group groups, t.splitOn 46 = group :: groups ∧
    groupsFrom cur t = groupFrom cur group :: groups.map groupValue := by
  induction t generalizing cur with
  | nil => exact ⟨[], [], rfl, rfl⟩
  | cons c t ih =>
      rw [List.splitOn_cons_eq_if_modifyHead, groupsFrom]
      by_cases dot : c = 46
      · obtain ⟨group, groups, split, values⟩ := ih 0
        rw [if_pos (beq_iff_eq.mpr dot), if_pos dot, split, values]
        exact ⟨[], group :: groups, rfl, rfl⟩
      · obtain ⟨group, groups, split, values⟩ := ih (cur * 10 + (c.toNat - 48))
        rw [if_neg (by simpa using dot), if_neg dot, split, values]
        exact ⟨c :: group, groups, rfl, rfl⟩

/-- Without digits so far the groups are those between the dots. -/
theorem groupsFrom_zero (t : List UInt8) : groupsFrom 0 t = (t.splitOn 46).map groupValue := by
  obtain ⟨group, groups, split, values⟩ := groupsFrom_eq 0 t
  rw [values, split]
  rfl

/-- There is one group more than there are dots. -/
theorem length_groupsFrom (cur : Nat) (t : List UInt8) :
    (groupsFrom cur t).length = t.count 46 + 1 := by
  induction t generalizing cur with
  | nil => rfl
  | cons c t ih =>
      rw [groupsFrom, List.count_cons]
      by_cases dot : c = 46
      · rw [if_pos dot, List.length_cons, ih, if_pos (beq_iff_eq.mpr dot)]
      · rw [if_neg dot, ih, if_neg (by simpa using dot)]

/-- The groups packed from a place on. -/
def packFrom (acc : Register) (k : Nat) : List Nat → Register
  | [] => acc
  | v :: vs => packFrom (acc ||| count v <<< (8 * k)) (k + 1) vs

end Groups

section Parsing

variable {s : Allocation 256} {ip ok : Allocation 8} {fuel i k cur : Nat} {acc : Register}
  {t : List UInt8} {c : UInt8}

/-- The characters of an address are not zero. -/
theorem AddrChar.ne_zero (char : AddrChar c) : c ≠ 0 := by
  rintro rfl
  obtain dot | ⟨digit, -⟩ := char
  · exact absurd dot (by decide)
  · exact absurd digit (by decide)

/-- A shift by less than eight bytes has a value. -/
theorem shl_count (inside : k < 8) :
    shl (count cur) (count (8 * k)) = some (count cur <<< (8 * k)) := by
  have counted : (count (8 * k)).toNat = 8 * k := toNat_count (by omega)
  rw [shl, counted, if_pos (by omega)]

/-- A shift by eight bytes has none. -/
theorem shl_outside : shl (count cur) (count (8 * 8)) = none := if_neg (by decide)

/-- A digit is added to the group behind a decimal place. -/
theorem digit_count (digit : 48 ≤ c.toNat) :
    count cur * 10 + (byteReg c - 48) = count (cur * 10 + (c.toNat - 48)) := by
  have shifted : byteReg c = count (c.toNat - 48) + 48 := by
    apply BitVec.eq_of_toNat_eq
    have below := c.toNat_lt
    rw [toNat_byteReg, show (48 : Register) = count 48 from rfl, count_add, toNat_count (by omega)]
    omega
  rw [shifted, BitVec.add_sub_cancel, ← count_add]
  congr 1
  exact (BitVec.ofNat_mul cur 10).symm

/-- The loop in front of a text. -/
structure AddrAt (s : Allocation 256) (i : Nat) (t : List UInt8) : Prop where
  chars : s.bytes.bytes i t.length = t
  null : s.bytes (i + t.length) = 0
  inside : i + t.length < 256
  isAddr : ∀ c ∈ t, AddrChar c

/-- Behind a character stands the rest of the address. -/
theorem AddrAt.tail (here : AddrAt s i (c :: t)) : AddrAt s (i + 1) t where
  chars := (List.cons.inj (Buffer.bytes_cons.symm.trans here.chars)).2
  null := by rw [Nat.add_assoc, Nat.add_comm 1]; exact here.null
  inside := by have inside := here.inside; rw [List.length_cons] at inside; omega
  isAddr c mem := here.isAddr c (List.mem_cons_of_mem _ mem)

/-- The character in front is loaded. -/
theorem AddrAt.load (here : AddrAt s i (c :: t)) : s.load 1 (count i) = some (charReg c) := by
  have inside := here.inside
  rw [List.length_cons] at inside
  rw [load_char (by omega) (by omega), (List.cons.inj (Buffer.bytes_cons.symm.trans here.chars)).1]

/-- The loop stops at the end of the address. -/
theorem AddrAt.stop (here : AddrAt s i []) (r : AddrParsing) (place : r.i = count i) :
    parseAddrBody s r = some (.inr r) := by
  have inside := here.inside
  have null : s.bytes i = 0 := here.null
  simp only [parseAddrBody, place, load_char (show i < 256 from inside)
    (show i < 2 ^ 63 by omega), null, Option.bind_eq_bind, Option.bind_some,
    charReg_eq_zero, if_true]
  rfl

/-- The loop adds a digit to its group. -/
theorem AddrAt.digit (here : AddrAt s i (c :: t)) (digit : c ≠ 46) :
    parseAddrBody s ⟨acc, count cur, count (8 * k), count i, count k⟩ =
      some (.inl ⟨acc, count (cur * 10 + (c.toNat - 48)), count (8 * k), count (i + 1),
        count k⟩) := by
  have char := here.isAddr c List.mem_cons_self
  have isDigit : 48 ≤ c.toNat := (char.resolve_left digit).1
  have other : ¬ byteReg c = 46 := fun same =>
    digit (UInt8.toNat_inj.mp (by rw [← toNat_byteReg, same]; rfl))
  simp only [parseAddrBody, here.load, Option.bind_eq_bind, Option.bind_some, charReg_eq_zero,
    if_neg char.ne_zero,
    charReg_and_255, if_neg other, digit_count isDigit, count_succ]
  rfl

/-- The loop shifts a group in its place at a dot. -/
theorem AddrAt.dot (here : AddrAt s i (46 :: t)) :
    parseAddrBody s ⟨acc, count cur, count (8 * k), count i, count k⟩ =
    (shl (count cur) (count (8 * k))).map fun contrib =>
      .inl ⟨acc ||| contrib, count 0, count (8 * (k + 1)), count (i + 1), count (k + 1)⟩ := by
  have isDot : byteReg 46 = 46 := by decide
  have shifted : count (8 * k) + 8 = count (8 * (k + 1)) := count_add
  simp only [parseAddrBody, here.load, Option.bind_eq_bind, Option.bind_some, charReg_eq_zero,
    if_neg (show ¬ (46 : UInt8) = 0 by decide), charReg_and_255, if_pos isDot, shifted, count_succ]
  cases shl (count cur) (count (8 * k)) <;> rfl

/-- With fewer than eight dots the loop reads every group. -/
theorem parseAddr_from (here : AddrAt s i t) (room : k + t.count 46 < 8)
    (enough : t.length < fuel) :
    (exits (parseAddrBody s) fuel ⟨acc, count cur, count (8 * k), count i, count k⟩).bind
      finishAddr =
      some (packFrom acc k (groupsFrom cur t), count (k + t.count 46 + 1)) := by
  induction t generalizing i k cur acc fuel with
  | nil =>
      obtain ⟨fuel, rfl⟩ := Nat.exists_eq_add_one_of_ne_zero (Nat.ne_of_gt enough)
      rw [exits_leave (here.stop _ rfl), Option.bind_some, finishAddr,
        shl_count (by simpa using room),
        List.count_nil, Nat.add_zero, ← count_succ]
      rfl
  | cons c t ih =>
      obtain ⟨fuel, rfl⟩ := Nat.exists_eq_add_one_of_ne_zero
        (Nat.ne_of_gt (Nat.zero_lt_of_lt enough))
      rw [List.count_cons] at room ⊢
      rw [List.length_cons] at enough
      by_cases dot : c = 46
      · subst dot
        have turn := @AddrAt.dot s i k cur acc t here
        rw [shl_count (by omega), Option.map_some] at turn
        rw [exits_next turn, ih here.tail (by simpa [Nat.add_assoc, Nat.add_comm] using room)
          (by omega)]
        simp [groupsFrom, packFrom, Nat.add_assoc, Nat.add_comm]
      · rw [if_neg (by simpa using dot)] at room ⊢
        simp only [Nat.add_zero] at room ⊢
        rw [exits_next (here.digit dot), ih here.tail room (by omega), groupsFrom, if_neg dot]

/-- At the eighth dot the loop has no result. -/
theorem parseAddr_fails_from (here : AddrAt s i t) (le : k ≤ 8) (dots : 8 ≤ k + t.count 46) :
    (exits (parseAddrBody s) fuel ⟨acc, count cur, count (8 * k), count i, count k⟩).bind
      finishAddr = none := by
  induction fuel generalizing i k cur acc t with
  | zero => rfl
  | succ fuel ih =>
      obtain _ | ⟨c, t⟩ := t
      · obtain rfl : k = 8 := by simp at dots; omega
        rw [exits_leave (here.stop _ rfl), Option.bind_some, finishAddr, shl_outside]
        rfl
      rw [List.count_cons] at dots
      by_cases dot : c = 46
      · subst dot
        have turn := @AddrAt.dot s i k cur acc t here
        obtain below | rfl := Nat.lt_or_eq_of_le le
        · rw [shl_count below, Option.map_some] at turn
          rw [exits_next turn]
          exact ih here.tail below (by simpa [Nat.add_assoc, Nat.add_comm] using dots)
        · rw [shl_outside, Option.map_none] at turn
          rw [exits_fail turn]
          rfl
      · rw [if_neg (by simpa using dot), Nat.add_zero] at dots
        rw [exits_next (here.digit dot)]
        exact ih here.tail le dots

/-- The whole behavior, where no shift leaves the register. -/
theorem parseAddr_eq (short : (s.bytes.text 256).length < 256)
    (isAddr : ∀ c ∈ s.bytes.text 256, AddrChar c)
    (enough : 256 ≤ fuel) : parseAddr fuel s ip ok =
      if (s.bytes.text 256).count 46 < 8 then
        some (⟨ip.bytes.store 0 (packFrom 0 0
          (((s.bytes.text 256).splitOn 46).map groupValue)).toNat 8⟩,
          ⟨ok.bytes.store 0 (flag ((s.bytes.text 256).count 46 = 3)).toNat 8⟩)
      else none := by
  have here : AddrAt s 0 (s.bytes.text 256) :=
    ⟨Buffer.text_eq_bytes.symm, by rw [Nat.zero_add]; exact Buffer.text_end short, by omega, isAddr⟩
  by_cases room : (s.bytes.text 256).count 46 < 8
  · have parsed := @parseAddr_from s fuel 0 0 0 0 _ here (by omega) (by omega)
    rw [Nat.zero_add, groupsFrom_zero] at parsed
    obtain ⟨r, looped, finished⟩ := Option.bind_eq_some_iff.mp parsed
    have groups : count ((s.bytes.text 256).count 46 + 1) = 4 ↔ (s.bytes.text 256).count 46 =
      3 := by
      rw [show (4 : Register) = count 4 from rfl, count_inj (by omega) (by decide)]
      omega
    have start : exits (parseAddrBody s) fuel ⟨0, 0, 0, 0, 0⟩ = some r := looped
    simp only [parseAddr, start, finished, Option.bind_eq_bind, Option.bind_some, store_int,
      if_pos room, groups]
    rfl
  · have failed := @parseAddr_fails_from s fuel 0 0 0 0 _ here (by decide) (by omega)
    rw [if_neg room]
    have start : (exits (parseAddrBody s) fuel ⟨0, 0, 0, 0, 0⟩).bind finishAddr = none := failed
    simp only [parseAddr, Option.bind_eq_bind, ← Option.bind_assoc, start]
    rfl

end Parsing

section Packing

variable {port ip addr_len : Allocation 8} {addr : Allocation 128} {k p v₀ v₁ v₂ v₃ : Nat}
  {acc : Register} {vs : List Nat}

/-- Octets are packed as digits of base 256. -/
theorem toNat_packFrom (octets : ∀ v ∈ vs, v ≤ 255) (low : acc.toNat < 256 ^ k)
    (room : k + vs.length ≤ 8) :
    (packFrom acc k vs).toNat = acc.toNat + 256 ^ k * Nat.ofDigits 256 vs := by
  induction vs generalizing acc k with
  | nil => simp [packFrom]
  | cons v vs ih =>
      rw [List.length_cons] at room
      have octet := octets v List.mem_cons_self
      have power : 256 ^ k = 2 ^ (8 * k) := by rw [Nat.pow_mul]
      have fits : 256 ^ (k + 1) ≤ 2 ^ 64 :=
        (Nat.pow_le_pow_right (by decide) (by omega)).trans_eq (by decide : 256 ^ 8 = 2 ^ 64)
      have below : v * 256 ^ k + acc.toNat < 256 ^ (k + 1) := by
        rw [Nat.pow_succ]
        have := Nat.mul_le_mul_right (256 ^ k) octet
        omega
      have packed : (acc ||| count v <<< (8 * k)).toNat = v * 256 ^ k + acc.toNat := by
        have shifted : (count v <<< (8 * k)).toNat = v <<< (8 * k) := by
          rw [BitVec.toNat_shiftLeft, toNat_count (by omega), Nat.shiftLeft_eq, ← power,
            Nat.mod_eq_of_lt (by omega)]
        rw [BitVec.toNat_or, shifted, Nat.or_comm,
          ← Nat.shiftLeft_add_eq_or_of_lt (power ▸ low), Nat.shiftLeft_eq, power]
      rw [packFrom, ih (fun v mem => octets v (List.mem_cons_of_mem _ mem)) (by omega)
        (by omega), packed, Nat.ofDigits_cons,
        Nat.pow_succ]
      ring

/-- A masked byte of a register. -/
theorem and_255_toNat (r : Register) (j : Nat) :
    UInt8.ofNat ((r >>> j) &&& 255).toNat = UInt8.ofNat (r.toNat / 2 ^ j) := by
  rw [and_255, BitVec.toNat_setWidth_of_le (by decide), BitVec.toNat_setWidth,
    BitVec.toNat_ushiftRight,
    Nat.shiftRight_eq_div_pow]
  exact UInt8.ofNat_mod_size

/-- The socket address of a port and four octets. -/
def sockaddr (port : Nat) (octets : List Nat) : List UInt8 :=
  [2, 0, UInt8.ofNat (port / 256), UInt8.ofNat port] ++ octets.map UInt8.ofNat ++ List.replicate 8 0

/-- Octets are the digits to base 256. -/
theorem sockaddr_digits (octets : ∀ v ∈ vs, v ≤ 255) (k : Nat) :
    UInt8.ofNat (Nat.ofDigits 256 vs / 256 ^ k) = UInt8.ofNat (vs.getD k 0) := by
  induction k generalizing vs with
  | zero =>
      obtain _ | ⟨v, vs⟩ := vs
      · rfl
      · rw [Nat.pow_zero, Nat.div_one, Nat.ofDigits_cons, ← UInt8.ofNat_mod_size]
        simpa using @UInt8.ofNat_mod_size v
  | succ k ih =>
      obtain _ | ⟨v, vs⟩ := vs
      · simp
      · have octet := octets v List.mem_cons_self
        have rest : Nat.ofDigits 256 (v :: vs) / 256 = Nat.ofDigits 256 vs := by
          rw [Nat.ofDigits_cons]
          omega
        rw [Nat.pow_succ', ← Nat.div_div_eq_div_mul, rest, ih fun v mem =>
          octets v (List.mem_cons_of_mem _ mem)]
        rfl

/-- `make-sockaddr` writes the port and the packed octets. -/
theorem makeSockaddr_eq (read : port.bytes.load 0 8 = p) (octets : ∀ v ∈ [v₀, v₁, v₂, v₃], v ≤ 255)
    (packed : (intIn ip).toNat = Nat.ofDigits 256 [v₀, v₁, v₂, v₃]) : ∃ addr' addr_len',
      makeSockaddr port ip addr addr_len = some (addr', addr_len') ∧
        addr'.bytes.bytes 0 16 = sockaddr p [v₀, v₁, v₂, v₃] := by
  have portv : (intIn port).toNat = p := toNat_intIn.trans read
  have low := and_255_toNat (intIn ip) 0
  have low' := and_255_toNat (intIn port) 0
  simp only [BitVec.ushiftRight_zero, Nat.pow_zero, Nat.div_one] at low low'
  have digit := sockaddr_digits octets
  have digit₀ : UInt8.ofNat (intIn ip).toNat = UInt8.ofNat v₀ := by simpa [packed] using digit 0
  have digit₁ : UInt8.ofNat ((intIn ip).toNat / 2 ^ 8) = UInt8.ofNat v₁ := packed ▸ digit 1
  have digit₂ : UInt8.ofNat ((intIn ip).toNat / 2 ^ 16) = UInt8.ofNat v₂ := packed ▸ digit 2
  have digit₃ : UInt8.ofNat ((intIn ip).toNat / 2 ^ 24) = UInt8.ofNat v₃ := packed ▸ digit 3
  simp only [makeSockaddr, load_intIn, Option.bind_eq_bind, Option.bind_some,
    Allocation.store_byte (show (0 : Register).toNat < 128 by decide),
      Allocation.store_byte (show (1 : Register).toNat < 128 by decide),
    Allocation.store_byte (show (2 : Register).toNat < 128 by decide),
      Allocation.store_byte (show (3 : Register).toNat < 128 by decide),
    Allocation.store_byte (show (4 : Register).toNat < 128 by decide),
      Allocation.store_byte (show (5 : Register).toNat < 128 by decide),
    Allocation.store_byte (show (6 : Register).toNat < 128 by decide),
      Allocation.store_byte (show (7 : Register).toNat < 128 by decide),
    Allocation.store_inside (show (8 : Register).toNat + 8 ≤ 128 by decide), store_int,
      and_255_toNat, low, low', portv,
    digit₀, digit₁, digit₂, digit₃]
  exact ⟨_, _, rfl, by rfl⟩

end Packing

section Addresses

variable {s : Allocation 256} {ip ok : Allocation 8} {fuel : Nat}

/-- `parse-addr` tells texts with three dots from others, and `make-sockaddr` writes the octets
of such a text in their order. -/
def ParsesAddresses (fuel : Nat) (s : Allocation 256) (ip ok : Allocation 8) : Prop :=
  ∃ ip' ok', parseAddr fuel s ip ok = some (ip', ok') ∧
    (intIn ok' = 1 ↔ (s.bytes.text 256).count 46 = 3) ∧
    ((s.bytes.text 256).count 46 = 3 → (∀ group ∈ (s.bytes.text 256).splitOn 46, group ≠ [] ∧
      groupValue group ≤ 255) →
      ∀ (port addr_len : Allocation 8) (addr : Allocation 128), port.bytes.load 0 8 ≤ 65535 →
        ∃ addr' addr_len', makeSockaddr port ip' addr addr_len = some (addr', addr_len') ∧
          addr'.bytes.bytes 0 16 = sockaddr (port.bytes.load 0 8)
            (((s.bytes.text 256).splitOn 46).map groupValue))

/-- Addresses are parsed exactly where there are at most seven dots. -/
theorem parsesAddresses_iff (short : (s.bytes.text 256).length < 256)
    (isAddr : ∀ c ∈ s.bytes.text 256, AddrChar c)
    (enough : 256 ≤ fuel) : ParsesAddresses fuel s ip ok ↔ (s.bytes.text 256).count 46 ≤ 7 := by
  unfold ParsesAddresses
  rw [parseAddr_eq short isAddr enough]
  constructor
  · rintro ⟨ip', ok', parsed, -⟩
    by_contra many
    rw [if_neg (by omega)] at parsed
    cases parsed
  · intro few
    rw [if_pos (by omega)]
    refine ⟨_, _, rfl, ?_, fun dots octets port addr_len addr _ => ?_⟩
    · rw [intIn_store]
      by_cases three : (s.bytes.text 256).count 46 = 3 <;> simp [flag, three]
    · have values : ∀ v ∈ ((s.bytes.text 256).splitOn 46).map groupValue, v ≤ 255 := by
        intro v mem
        obtain ⟨group, among, rfl⟩ := List.mem_map.mp mem
        exact (octets group among).2
      have four : (((s.bytes.text 256).splitOn 46).map groupValue).length = 4 := by
        rw [← groupsFrom_zero, length_groupsFrom, dots]
      obtain ⟨vs, packed⟩ : ∃ vs, ((s.bytes.text 256).splitOn 46).map groupValue = vs := ⟨_, rfl⟩
      rw [packed] at values four ⊢
      obtain ⟨v₀, v₁, v₂, v₃, rfl⟩ : ∃ v₀ v₁ v₂ v₃, vs = [v₀, v₁, v₂, v₃] := by
        match vs, four with
        | [v₀, v₁, v₂, v₃], _ => exact ⟨v₀, v₁, v₂, v₃, rfl⟩
      refine makeSockaddr_eq rfl values ?_
      rw [intIn_store, toNat_packFrom values (by decide) (by simp)]
      simp

/-- The text `1.2.3.4` -/
def dotted : Allocation 256 := ⟨fun i => [49, 46, 50, 46, 51, 46, 52].getD i 0⟩

/-- The text in the buffer `dotted`. -/
theorem text_dotted : dotted.bytes.text 256 = [49, 46, 50, 46, 51, 46, 52] := by
  have length : (dotted.bytes.text 256).length = 7 :=
    Buffer.length_text (by decide) (by decide) fun _ => rfl
  rw [Buffer.text_eq_bytes, length]
  rfl

/-- Four numbers between dots. -/
theorem parsesAddresses_iff_dotted :
    ParsesAddresses 256 dotted (intOf 0) (intOf 0) ↔ (dotted.bytes.text 256).count 46 ≤ 7 :=
  parsesAddresses_iff (by rw [text_dotted]; decide) (by rw [text_dotted]; simp [AddrChar])
    (by decide)

/-- A group behind eight dots is shifted by the width of the register. -/
theorem parseAddr_dots : ¬ ∃ fuel ≥ 256, ParsesAddresses fuel ⟨fun i => if i < 8 then 46 else 0⟩
    (intOf 0) (intOf 0) := by
  rintro ⟨fuel, enough, ip', ok', parsed, -⟩
  have length : (Buffer.text (fun i => if i < 8 then 46 else 0) 256).length = 8 :=
    Buffer.length_text (by decide) (fun i below => by rw [if_pos below]; decide) fun _ =>
      if_neg (by decide)
  have text : Buffer.text (fun i => if i < 8 then 46 else 0) 256 = List.replicate 8 46 := by
    rw [Buffer.text_eq_bytes, length]
    rfl
  rw [parseAddr_eq (by rw [length]; decide)
    (by rw [text]; exact fun c mem => .inl (List.eq_of_mem_replicate mem)) enough,
    if_neg (by rw [text]; decide)] at parsed
  cases parsed

end Addresses

end Sigil.Stdlib
