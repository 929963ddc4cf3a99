import Mathlib

/-!
# Calendar dates

Days counted from 1970 in the Gregorian calendar, the date of a day, and the instants of civil
times.
-/

namespace Flow

section Parts

variable {ls : List Nat} {d i l r : Nat}

/-- In which of several parts an offset lies, and where in it. -/
def locate : List Nat → Nat → Nat × Nat
  | [], d => (0, d)
  | l :: ls, d => if d < l then (0, d) else ((locate ls (d - l)).1 + 1, (locate ls (d - l)).2)

/-- A number below the sum lies in one of the lengths. -/
theorem locate_inside (inside : d < ls.sum) :
    (locate ls d).1 < ls.length ∧ (locate ls d).2 < ls.getD (locate ls d).1 0 ∧
    (ls.take (locate ls d).1).sum + (locate ls d).2 = d := by
  induction ls generalizing d with
  | nil => exact absurd inside (Nat.not_lt_zero d)
  | cons l ls ih =>
      rw [List.sum_cons] at inside
      rw [locate]
      by_cases here : d < l
      · rw [if_pos here]
        exact ⟨Nat.succ_pos _, here, Nat.zero_add d⟩
      · obtain ⟨index, part, whole⟩ := @ih (d - l) (by omega)
        rw [if_neg here]
        refine ⟨Nat.succ_lt_succ index, part, ?_⟩
        rw [List.take_succ_cons, List.sum_cons]
        omega

/-- A number is located where it has been put. -/
theorem locate_take (part : r < ls.getD i 0) : locate ls ((ls.take i).sum + r) = (i, r) := by
  induction ls generalizing i with
  | nil => exact absurd part (by simp)
  | cons l ls ih =>
      obtain _ | i := i
      · rw [List.take_zero, List.sum_nil, Nat.zero_add, locate, if_pos (show r < l from part)]
      · have rest := @ih i part
        rw [List.take_succ_cons, List.sum_cons, locate, if_neg (by omega), Nat.add_assoc,
          Nat.add_sub_cancel_left, rest]

/-- The last part takes what is left. -/
theorem locate_last (inside : d < ls.sum + l) : locate (ls ++ [l]) d = locate ls d := by
  induction ls generalizing d with
  | nil =>
      have here : d < l := by simpa using inside
      exact if_pos here
  | cons m ls ih =>
      rw [List.sum_cons] at inside
      rw [List.cons_append, locate, locate]
      by_cases here : d < m
      · rw [if_pos here, if_pos here]
      · rw [if_neg here, if_neg here, ih (by omega)]

end Parts

namespace Calendar

variable {y k d : Nat}

/-- Every fourth year is a leap year, a century only every fourth time. -/
def IsLeap (y : Nat) : Prop := y % 4 = 0 ∧ (y % 100 ≠ 0 ∨ y % 400 = 0)

instance : DecidablePred IsLeap := fun _ => inferInstanceAs (Decidable (_ ∧ _))

def daysInYear (y : Nat) : Nat := if IsLeap y then 366 else 365

def monthLengths (y : Nat) : List Nat :=
    [31, if IsLeap y then 29 else 28, 31, 30, 31, 30, 31, 31, 30, 31, 30, 31]

/-- The months make up the year. -/
theorem sum_monthLengths : (monthLengths y).sum = daysInYear y := by
  rw [monthLengths, daysInYear]
  split_ifs <;> rfl

/-- The days from the start of 1970 to the start of the `k`th year behind it. -/
def daysToYear : Nat → Nat
  | 0 => 0
  | k + 1 => daysToYear k + daysInYear (1970 + k)

/-- A year has 365 or 366 days. -/
theorem daysInYear_bounds : 365 ≤ daysInYear y ∧ daysInYear y ≤ 366 := by
  rw [daysInYear]
  split_ifs <;> omega

/-- So many years have so many days. -/
theorem daysToYear_bounds : 365 * k ≤ daysToYear k ∧ daysToYear k ≤ 366 * k := by
  induction k with
  | zero => exact ⟨Nat.le_refl 0, Nat.le_refl 0⟩
  | succ k ih =>
      have year := @daysInYear_bounds (1970 + k)
      rw [daysToYear]
      omega

/-- Later years begin later. -/
theorem daysToYear_mono : Monotone daysToYear :=
    monotone_nat_of_le_succ fun _ => Nat.le_add_right _ _

/-- Every day lies in a year. -/
theorem exists_year : ∃ k, daysToYear k ≤ d ∧ d < daysToYear (k + 1) := by
  have later : ∃ k, d < daysToYear (k + 1) :=
    ⟨d, by have bounds := @daysToYear_bounds (d + 1); omega⟩
  refine ⟨Nat.find later, ?_, Nat.find_spec later⟩
  obtain first | ⟨k, next⟩ : Nat.find later = 0 ∨ ∃ k, Nat.find later = k + 1 := by
    cases Nat.find later with
    | zero => exact .inl rfl
    | succ k => exact .inr ⟨k, rfl⟩
  · rw [first]
    exact Nat.zero_le d
  · rw [next]
    exact Nat.le_of_not_lt (Nat.find_min later (by omega))

/-- A day lies in one year. -/
theorem year_unique {k' : Nat} (in_ : daysToYear k ≤ d ∧ d < daysToYear (k + 1))
    (in_' : daysToYear k' ≤ d ∧ d < daysToYear (k' + 1)) :
    k = k' := by
  obtain less | same | more := Nat.lt_trichotomy k k'
  · have le := daysToYear_mono less
    rw [Nat.succ_eq_add_one] at le
    omega
  · exact same
  · have le := daysToYear_mono more
    rw [Nat.succ_eq_add_one] at le
    omega

/-- A date from 1970 on and a time of day. -/
@[ext] structure Civil where
  year : Nat
  month : Nat
  day : Nat
  hour : Nat
  minute : Nat
  second : Nat
  from_1970 : 1970 ≤ year
  month_pos : 0 < month
  day_pos : 0 < day
  day_le : day ≤ (monthLengths year).getD (month - 1) 0
  hour_lt : hour < 24
  minute_lt : minute < 60
  second_lt : second < 60

namespace Civil

variable (c : Civil)

/-- The day in its year, from 0 on. -/
def yearDay : Nat := ((monthLengths c.year).take (c.month - 1)).sum + (c.day - 1)

/-- The days since the start of 1970. -/
def dayNumber : Nat := daysToYear (c.year - 1970) + c.yearDay

/-- The seconds since the start of 1970. -/
def seconds : Nat := c.dayNumber * 86400 + c.hour * 3600 + c.minute * 60 + c.second

/-- The day of the year lies in its month. -/
theorem locate_yearDay : locate (monthLengths c.year) c.yearDay = (c.month - 1, c.day - 1) := by
  have day := c.day_le
  have positive := c.day_pos
  exact locate_take (by omega)

/-- The day of the year lies in the year. -/
theorem yearDay_lt : c.yearDay < daysInYear c.year := by
  have day := c.day_le
  have positive := c.day_pos
  have part : c.day - 1 < (monthLengths c.year).getD (c.month - 1) 0 := by omega
  rw [← sum_monthLengths, yearDay]
  obtain inside | outside := Nat.lt_or_ge (c.month - 1) (monthLengths c.year).length
  · have split := congrArg List.sum (List.take_append_drop (c.month - 1) (monthLengths c.year))
    rw [List.sum_append, List.drop_eq_getElem_cons inside, List.sum_cons] at split
    rw [List.getD_eq_getElem _ _ inside] at part
    omega
  · rw [List.getD_eq_default _ _ outside] at part
    exact absurd part (Nat.not_lt_zero _)

/-- A date lies in its year. -/
theorem dayNumber_bounds : daysToYear (c.year - 1970) ≤ c.dayNumber ∧
    c.dayNumber < daysToYear (c.year - 1970 + 1) := by
  have inside := c.yearDay_lt
  have from_ := c.from_1970
  rw [dayNumber, daysToYear, show 1970 + (c.year - 1970) = c.year by omega]
  omega

/-- An instant has one date and time. -/
theorem seconds_injective : Function.Injective seconds := by
  intro c c' same
  have hour := c.hour_lt
  have hour' := c'.hour_lt
  have minute := c.minute_lt
  have minute' := c'.minute_lt
  have second := c.second_lt
  have second' := c'.second_lt
  rw [seconds, seconds] at same
  have days : c.dayNumber = c'.dayNumber := by omega
  have bounds' := c'.dayNumber_bounds
  rw [← days] at bounds'
  have year := year_unique c.dayNumber_bounds bounds'
  have from_ := c.from_1970
  have from_' := c'.from_1970
  have years : c.year = c'.year := by omega
  have yearDays : c.yearDay = c'.yearDay := by
    rw [dayNumber, dayNumber, year] at days
    omega
  have located := c.locate_yearDay
  rw [yearDays, years, c'.locate_yearDay] at located
  obtain ⟨months, monthDays⟩ := Prod.mk.inj located
  have month := c.month_pos
  have month' := c'.month_pos
  have day := c.day_pos
  have day' := c'.day_pos
  ext <;> omega

end Civil

end Calendar

end Flow
