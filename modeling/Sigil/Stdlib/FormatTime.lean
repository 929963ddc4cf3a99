import Sigil.Flow.Calendar
import Sigil.Stdlib.Decimal
import Sigil.Stdlib.Scan

/-!
# The behavior `format-time`

The date and time of a timestamp: whole years are subtracted from its days, then whole months.
-/

namespace Sigil.Stdlib

open Flow Calendar

/-- `is_leap` -/
def leapDay (y : Register) : Register :=
  let rem4 := y.srem 4
  let is_div4 := flag (rem4 = 0)
  let rem100 := y.srem 100
  let is_div100 := flag (rem100 = 0)
  let rem400 := y.srem 400
  let is_div400 := flag (rem400 = 0)
  let not_div100 := flag (is_div100 = 0)
  let leap_cond := not_div100 ||| is_div400
  is_div4 &&& leap_cond

/-- `year_loop` and `subtract_year`: the year and the days that are left -/
def yearBody (s : Register × Register) : Option (Register × Register ⊕ Register × Register) :=
  let days_in_year := 365 + leapDay s.1
  if ige s.2 days_in_year then some (.inl (s.1 + 1, s.2 - days_in_year))
  else some (.inr s)

/-- The blocks from January to November: the month and the days that are left, where the months
before December have the given lengths -/
def subtractMonths (month dl : Register) : List Register → Register × Register
  | [] => (month, dl)
  | days :: rest => if ilt dl days then (month, dl) else subtractMonths (month + 1) (dl - days) rest

/-- The stores of `formatted`, one behind the other. -/
def storeChars (formatted : Allocation 32) (off : Register) : List Register → Option (Allocation 32)
  | [] => some formatted
  | c :: chars => do
      let formatted ← formatted.store c 1 off
      storeChars formatted (off + 1) chars

def formatTime (fuel : Nat) (timestamp : Allocation 8) (formatted : Allocation 32)
    (length : Allocation 8) :
    Option (Allocation 32 × Allocation 8) := do
  let ts ← timestamp.load 8 0
  let secs := ts.sdiv 1000
  let day_secs := secs.srem 86400
  let hour := day_secs.sdiv 3600
  let remain := day_secs.srem 3600
  let minute := remain.sdiv 60
  let second := remain.srem 60
  let total_days := secs.sdiv 86400
  let (y, dl) ← exits yearBody fuel (1970, total_days)
  let feb_days := 28 + leapDay y
  let (m, dl) := subtractMonths 1 dl [31, feb_days, 31, 30, 31, 30, 31, 31, 30, 31, 30]
  let day := dl + 1
  let y1000 := y.sdiv 1000
  let y100r := y.srem 1000
  let y100 := y100r.sdiv 100
  let y10r := y100r.srem 100
  let y10 := y10r.sdiv 10
  let y1 := y10r.srem 10
  let formatted ← storeChars formatted 0
    [y1000 + 48, y100 + 48, y10 + 48, y1 + 48, 45, m.sdiv 10 + 48, m.srem 10 + 48, 45,
    day.sdiv 10 + 48, day.srem 10 + 48, 32, hour.sdiv 10 + 48, hour.srem 10 + 48, 58,
      minute.sdiv 10 + 48,
    minute.srem 10 + 48, 58, second.sdiv 10 + 48, second.srem 10 + 48, 0]
  let length ← length.store 19 8 0
  return (formatted, length)

section Arithmetic

variable {a b n : Nat} {formatted : Allocation 32} {chars : List Register}

/-- The leap day is one in a leap year and zero in another. -/
theorem leapDay_eq (small : a < 2 ^ 63) :
    leapDay (count a) = count (if IsLeap a then 1 else 0) := by
  have rem : ∀ b, 0 < b → b < 2 ^ 63 → (decide ((count a).srem (count b) = 0)) =
    decide (a % b = 0) := by
    intro b positive small'
    have below := Nat.mod_lt a positive
    rw [count_srem small small', ← count_zero, decide_eq_decide, count_inj (by omega) (by decide)]
  have rem4 := rem 4 (by decide) (by decide)
  have rem100 := rem 100 (by decide) (by decide)
  have rem400 := rem 400 (by decide) (by decide)
  rw [leapDay, show (4 : Register) = count 4 from rfl, show (100 : Register) = count 100 from rfl,
    show (400 : Register) = count 400 from rfl, rem4, rem100, rem400]
  by_cases four : a % 4 = 0 <;> by_cases hundred : a % 100 = 0 <;> by_cases fourHundred :
    a % 400 = 0 <;>
    simp [four, hundred, fourHundred, IsLeap, flag]

/-- Characters are stored one behind the other. -/
theorem storeChars_eq (room : n + chars.length ≤ 32) :
    ∃ formatted', storeChars formatted (count n) chars = some formatted' ∧
    formatted'.bytes.bytes 0 (n + chars.length) =
      formatted.bytes.bytes 0 n ++ chars.map fun c => UInt8.ofNat c.toNat := by
  induction chars generalizing n formatted with
  | nil => exact ⟨formatted, rfl, (List.append_nil _).symm⟩
  | cons c chars ih =>
      rw [List.length_cons] at room
      obtain ⟨formatted', stored, bytes⟩ :=
        @ih (n + 1) ⟨Function.update formatted.bytes n (UInt8.ofNat c.toNat)⟩ (by omega)
      refine ⟨formatted', ?_, ?_⟩
      · rw [storeChars, store_char (by omega) (by omega), Option.bind_eq_bind, Option.bind_some,
          count_succ]
        exact stored
      · rw [List.length_cons, Nat.add_comm chars.length, ← Nat.add_assoc, bytes,
          Buffer.bytes_update_last, List.append_assoc]
        rfl

end Arithmetic

section Dates

variable {fuel d k m : Nat} {ls : List Nat}

/-- The year loop ends in the year of the day. -/
theorem exits_yearBody (from_ : daysToYear k ≤ d) (inside : d < daysToYear (k + 1))
    (small : d < 2 ^ 62) (enough : k < fuel) :
    exits yearBody fuel (1970, count d) = some (count (1970 + k), count (d - daysToYear k)) := by
  have days : ∀ i ≤ k, 365 + leapDay (count (1970 + i)) = count (daysInYear (1970 + i)) := by
    intro i le
    have bounds := @daysToYear_bounds k
    rw [leapDay_eq (by omega), show (365 : Register) = count 365 from rfl, count_add, daysInYear]
    split_ifs <;> rfl
  refine exits_along_leave (n := k) (p := fun i => (count (1970 + i), count (d - daysToYear i)))
    (fun i below => ?_) ?_ enough
  · have later := daysToYear_mono (Nat.succ_le_of_lt below)
    rw [Nat.succ_eq_add_one, daysToYear] at later
    have bounds := @daysInYear_bounds (1970 + i)
    simp only [yearBody, days i below.le, ige_counts (show d - daysToYear i < 2 ^ 63 by omega)
      (show daysInYear (1970 + i) < 2 ^ 63 by omega),
      count_succ]
    rw [decide_eq_true (by omega), if_pos rfl, count_sub (by omega), daysToYear, Nat.sub_sub,
      Nat.add_assoc]
  · have bounds := @daysInYear_bounds (1970 + k)
    rw [daysToYear] at inside
    simp only [yearBody, days k (Nat.le_refl k),
      ige_counts (show d - daysToYear k < 2 ^ 63 by omega)
        (show daysInYear (1970 + k) < 2 ^ 63 by omega)]
    rw [decide_eq_false (by omega)]
    rfl

/-- The months are subtracted as far as the day lies behind them. -/
theorem subtractMonths_eq (small : d < 2 ^ 62) (smalls : ∀ l ∈ ls, l < 2 ^ 62) :
    subtractMonths (count m) (count d) (ls.map count) =
      (count (m + (locate ls d).1), count (locate ls d).2) := by
  induction ls generalizing m d with
  | nil => rfl
  | cons l ls ih =>
      have small' := smalls l List.mem_cons_self
      rw [List.map_cons, subtractMonths, ilt_counts (by omega) (by omega), locate]
      by_cases here : d < l
      · rw [if_pos (decide_eq_true here), if_pos here]
        rfl
      · rw [if_neg (by simpa using here), if_neg here, count_succ, count_sub (by omega),
          ih (by omega) fun l mem => smalls l (List.mem_cons_of_mem _ mem)]
        rw [Nat.add_assoc, Nat.add_comm 1]

/-- The lengths of the months before December. -/
def monthsToNovember (y : Nat) : List Nat :=
    [31, if IsLeap y then 29 else 28, 31, 30, 31, 30, 31, 31, 30, 31, 30]

/-- The months to November and December. -/
theorem monthLengths_eq {y : Nat} : monthLengths y = monthsToNovember y ++ [31] := rfl

/-- The lengths of months are small. -/
theorem monthsToNovember_small {y : Nat} : ∀ l ∈ monthsToNovember y, l < 2 ^ 62 := by
  intro l mem
  simp only [monthsToNovember, List.mem_cons, List.not_mem_nil, or_false] at mem
  split_ifs at mem <;> omega

/-- The month and the day that are left behind the months before. -/
theorem months_eq {y : Nat} (inside : d < daysInYear y) (small : y < 2 ^ 62) :
    subtractMonths 1 (count d) [31, 28 + leapDay (count y), 31, 30, 31, 30, 31, 31, 30, 31, 30] =
      (count ((locate (monthLengths y) d).1 + 1), count (locate (monthLengths y) d).2) := by
  have leap : (28 : Register) + leapDay (count y) = count (if IsLeap y then 29 else 28) := by
    rw [leapDay_eq (by omega), show (28 : Register) = count 28 from rfl, count_add]
    split_ifs <;> rfl
  have bounds := @daysInYear_bounds y
  rw [← sum_monthLengths, monthLengths_eq, List.sum_append, List.sum_singleton] at inside
  have subtracted := @subtractMonths_eq d 1 _
    (by rw [← sum_monthLengths, monthLengths_eq, List.sum_append, List.sum_singleton] at bounds; omega)
    (@monthsToNovember_small y)
  rw [← locate_last inside, ← monthLengths_eq, Nat.add_comm 1] at subtracted
  rw [leap]
  exact subtracted

/-- The date that the loop and the months find. -/
theorem exists_civil {secs : Nat} (from_ : daysToYear k ≤ secs / 86400)
    (inside : secs / 86400 < daysToYear (k + 1)) :
    ∃ c : Civil, c.seconds = secs ∧ c.year = 1970 + k ∧
      c.month = (locate (monthLengths (1970 + k)) (secs / 86400 - daysToYear k)).1 + 1 ∧
      c.day = (locate (monthLengths (1970 + k)) (secs / 86400 - daysToYear k)).2 + 1 ∧
      c.hour = secs % 86400 / 3600 ∧ c.minute = secs % 86400 % 3600 / 60 ∧ c.second =
        secs % 86400 % 3600 % 60 := by
  rw [daysToYear] at inside
  obtain ⟨index, part, whole⟩ := @locate_inside (monthLengths (1970 + k))
    (secs / 86400 - daysToYear k) (by
    rw [sum_monthLengths]
    omega)
  refine ⟨⟨1970 + k, _, _, secs % 86400 / 3600, secs % 86400 % 3600 / 60,
    secs % 86400 % 3600 % 60, Nat.le_add_right _ _,
    Nat.succ_pos _, Nat.succ_pos _, part, by
      omega, by omega, by omega⟩, ?_, rfl, rfl, rfl, rfl, rfl, rfl⟩
  simp only [Civil.seconds, Civil.dayNumber, Civil.yearDay, Nat.succ_eq_add_one,
    Nat.add_sub_cancel, Nat.add_sub_cancel_left, whole]
  omega

end Dates

section Texts

def twoDigits (n : Nat) : List UInt8 := [UInt8.ofNat (48 + n / 10), UInt8.ofNat (48 + n % 10)]

/-- `YYYY-MM-DD HH:MM:SS` -/
def civilText (c : Civil) : List UInt8 :=
  twoDigits (c.year / 100) ++ twoDigits (c.year % 100) ++ [45] ++ twoDigits c.month ++ [45] ++
    twoDigits c.day ++ [32] ++
    twoDigits c.hour ++ [58] ++ twoDigits c.minute ++ [58] ++ twoDigits c.second

variable {fuel t x : Nat} {timestamp length : Allocation 8} {formatted : Allocation 32}

/-- The character of a digit register is that of the number. -/
theorem charOf_digit (small : x < 2 ^ 62) :
    UInt8.ofNat (count x + 48).toNat = UInt8.ofNat (48 + x) := by
  rw [show (48 : Register) = count 48 from rfl, count_add, toNat_count (by omega), Nat.add_comm]

/-- Small registers are divided as numbers. -/
theorem sdiv_count {d : Nat} (small : x < 2 ^ 62) (small' : d < 2 ^ 62) :
    (count x).sdiv (count d) = count (x / d) ∧ (count x).srem (count d) = count (x % d) :=
  ⟨count_sdiv (by omega) (by omega), count_srem (by omega) (by omega)⟩

/-- The character of the tens. -/
theorem charOf_tens (small : x < 2 ^ 62) :
    UInt8.ofNat ((count x).sdiv 10 + 48).toNat = UInt8.ofNat (48 + x / 10) := by
  rw [show (10 : Register) = count 10 from rfl, (sdiv_count small (by decide)).1,
    charOf_digit (by omega)]

/-- The character of the ones. -/
theorem charOf_ones (small : x < 2 ^ 62) :
    UInt8.ofNat ((count x).srem 10 + 48).toNat = UInt8.ofNat (48 + x % 10) := by
  rw [show (10 : Register) = count 10 from rfl, (sdiv_count small (by decide)).2,
    charOf_digit (by omega)]

/-- `format-time` writes the date and time of the instant and a terminator, up to the year 9999. -/
theorem formatTime_eq (read : timestamp.bytes.load 0 8 = t)
    (before : t < daysToYear (10000 - 1970) * 86400000) (enough : 10000 ≤ fuel) :
    ∃ formatted' length', formatTime fuel timestamp formatted length = some (formatted', length') ∧
      length'.bytes.load 0 8 = 19 ∧
      ∃ c : Civil, (∀ c' : Civil, c'.seconds = t / 1000 ↔ c' = c) ∧
        formatted'.bytes.bytes 0 20 = civilText c ++ [0] := by
  have counted : intIn timestamp = count t := by rw [intIn, read]
  obtain ⟨k, from_, inside⟩ := @exists_year (t / 1000 / 86400)
  obtain ⟨early, small⟩ : k < 10000 - 1970 ∧ t < 2 ^ 60 := by
    obtain ⟨last, ended⟩ : ∃ last, daysToYear (10000 - 1970) = last := ⟨_, rfl⟩
    have bounds := (@daysToYear_bounds (10000 - 1970)).2
    rw [ended] at before bounds
    refine ⟨?_, by omega⟩
    by_contra late
    have later := daysToYear_mono (Nat.le_of_not_lt late)
    rw [ended] at later
    omega
  clear before
  obtain ⟨c, seconds, year, month, day, hour, minute, second⟩ := exists_civil from_ inside
  have looped := @exits_yearBody fuel _ k from_ inside (by omega) (by omega)
  obtain ⟨d, left⟩ : ∃ d, t / 1000 / 86400 - daysToYear k = d := ⟨_, rfl⟩
  rw [left] at month day looped
  have yearDay : d < daysInYear (1970 + k) := by
    rw [daysToYear] at inside
    omega
  obtain ⟨index, -, whole⟩ := @locate_inside (monthLengths (1970 + k)) d
    (yearDay.trans_eq sum_monthLengths.symm)
  have small_month : c.month ≤ 12 := month.trans_le index
  have small_day : c.day ≤ 367 := by
    have bounds := @daysInYear_bounds (1970 + k)
    omega
  have months := months_eq yearDay (show 1970 + k < 2 ^ 62 by omega)
  rw [← month] at months
  have next : count (locate (monthLengths (1970 + k)) d).2 + 1 = count c.day :=
    count_succ.trans (congrArg count day.symm)
  have secs := (@sdiv_count t 1000 (by omega) (by decide)).1
  have day_secs := (@sdiv_count (t / 1000) 86400 (by omega) (by decide)).2
  have total := (@sdiv_count (t / 1000) 86400 (by omega) (by decide)).1
  have hours := (@sdiv_count (t / 1000 % 86400) 3600 (by omega) (by decide)).1
  have remain := (@sdiv_count (t / 1000 % 86400) 3600 (by omega) (by decide)).2
  have minutes := (@sdiv_count (t / 1000 % 86400 % 3600) 60 (by omega) (by decide)).1
  have seconds' := (@sdiv_count (t / 1000 % 86400 % 3600) 60 (by omega) (by decide)).2
  have y1000 := (@sdiv_count (1970 + k) 1000 (by omega) (by decide)).1
  have y100r := (@sdiv_count (1970 + k) 1000 (by omega) (by decide)).2
  have y100 := (@sdiv_count ((1970 + k) % 1000) 100 (by omega) (by decide)).1
  have y10r := (@sdiv_count ((1970 + k) % 1000) 100 (by omega) (by decide)).2
  have start : exits yearBody fuel (1970, count (t / 1000 / 86400)) =
    some (count (1970 + k), count d) := looped
  obtain ⟨formatted', stored, bytes⟩ :=
    @storeChars_eq 0 formatted [count ((1970 + k) / 1000) + 48,
      count ((1970 + k) % 1000 / 100) + 48,
    (count ((1970 + k) % 1000 % 100)).sdiv 10 + 48, (count ((1970 + k) % 1000 % 100)).srem 10 +
      48, 45, (count c.month).sdiv 10 + 48,
    (count c.month).srem 10 + 48, 45, (count c.day).sdiv 10 + 48, (count c.day).srem 10 + 48,
      32, (count c.hour).sdiv 10 + 48,
    (count c.hour).srem 10 + 48, 58, (count c.minute).sdiv 10 + 48,
      (count c.minute).srem 10 + 48, 58,
    (count c.second).sdiv 10 + 48, (count c.second).srem 10 + 48, 0] (show 0 + 20 ≤ 32 by decide)
  rw [count_zero] at stored
  refine ⟨formatted', ⟨length.bytes.store 0 19 8⟩, ?_, Buffer.load_store (by decide), c,
    fun c' => ?_, bytes.trans ?_⟩
  · have secs' : (count t).sdiv 1000 = count (t / 1000) := secs
    have total' : (count (t / 1000)).sdiv 86400 = count (t / 1000 / 86400) := total
    have day_secs' : (count (t / 1000)).srem 86400 = count (t / 1000 % 86400) := day_secs
    have hours' : (count (t / 1000 % 86400)).sdiv 3600 = count c.hour :=
      hours.trans (congrArg count hour.symm)
    have remain' : (count (t / 1000 % 86400)).srem 3600 = count (t / 1000 % 86400 % 3600) := remain
    have minutes' : (count (t / 1000 % 86400 % 3600)).sdiv 60 = count c.minute :=
      minutes.trans (congrArg count minute.symm)
    have seconds' : (count (t / 1000 % 86400 % 3600)).srem 60 = count c.second :=
      seconds'.trans (congrArg count second.symm)
    have y1000' : (count (1970 + k)).sdiv 1000 = count ((1970 + k) / 1000) := y1000
    have y100r' : (count (1970 + k)).srem 1000 = count ((1970 + k) % 1000) := y100r
    have y100' : (count ((1970 + k) % 1000)).sdiv 100 = count ((1970 + k) % 1000 / 100) := y100
    have y10r' : (count ((1970 + k) % 1000)).srem 100 = count ((1970 + k) % 1000 % 100) := y10r
    simp only [formatTime, load_intIn, counted, secs', total', day_secs', hours', remain',
      minutes', seconds', start, months, next, y1000',
      y100r', y100', y10r', stored, store_int, Option.bind_eq_bind, Option.bind_some]
    rfl
  · rw [← seconds]
    exact Civil.seconds_injective.eq_iff
  · simp only [List.map_cons, List.map_nil, charOf_digit (show (1970 + k) / 1000 < 2 ^ 62 by omega),
      charOf_digit (show (1970 + k) % 1000 / 100 < 2 ^ 62 by omega),
        charOf_tens (show (1970 + k) % 1000 % 100 < 2 ^ 62 by omega),
      charOf_ones (show (1970 + k) % 1000 % 100 < 2 ^ 62 by omega),
        charOf_tens (show c.month < 2 ^ 62 by omega),
      charOf_ones (show c.month < 2 ^ 62 by omega), charOf_tens (show c.day < 2 ^ 62 by omega),
      charOf_ones (show c.day < 2 ^ 62 by omega), charOf_tens (show c.hour < 2 ^ 62 by omega),
      charOf_ones (show c.hour < 2 ^ 62 by omega), charOf_tens (show c.minute < 2 ^ 62 by omega),
      charOf_ones (show c.minute < 2 ^ 62 by omega), charOf_tens (show c.second < 2 ^ 62 by omega),
      charOf_ones (show c.second < 2 ^ 62 by omega)]
    rw [civilText, year, show (1970 + k) / 1000 = (1970 + k) / 100 / 10 by omega,
      show (1970 + k) % 1000 / 100 = (1970 + k) / 100 % 10 by
        omega, show (1970 + k) % 1000 % 100 = (1970 + k) % 100 by omega]
    rfl

/-- A leap day. -/
theorem formatTime_eq_leapDay : ∃ formatted' length',
    formatTime 10000 (intOf 951782400000) ⟨fun _ => 0⟩ (intOf 0) =
      some (formatted', length') ∧ length'.bytes.load 0 8 = 19 ∧
    ∃ c : Civil, (∀ c' : Civil, c'.seconds = 951782400000 / 1000 ↔ c' = c) ∧
      formatted'.bytes.bytes 0 20 = civilText c ++ [0] :=
  formatTime_eq (load_intOf (by decide))
    (by have bounds := (@daysToYear_bounds (10000 - 1970)).1; omega) (by decide)

end Texts

end Sigil.Stdlib
