import Mathlib.Algebra.Order.Ring.Int
import Mathlib.Data.Nat.Notation
import Mathlib.Tactic.IntervalCases
import Mathlib.Tactic.Linarith

/-!
# The Gregorian calendar

The proleptic Gregorian calendar: leap years, the lengths of months, and the dates that
exist (`Date`). There are two ways to number the days from 1970-01-01 on.

* `Date.dayCount` counts them: year by year, then month by month, then the days of the month.
  It starts in 1970.
* `Date.dayNumber` is a closed form for all years. It lets the year begin in March, so that
  the day that a leap year adds is the last one.

`Date.dayNumber_eq_dayCount` says that the closed form counts days, and `Date.dayNumber_next`
that for all years it numbers the dates one after the other.
-/

namespace TradeFeed.Lib.Calendar

/-! ### Dates -/

/-- A leap year: every fourth one, but of the full hundreds only every fourth. -/
def IsLeap (y : ℤ) : Prop := y % 4 = 0 ∧ (y % 100 ≠ 0 ∨ y % 400 = 0)

instance (y : ℤ) : Decidable (IsLeap y) := inferInstanceAs (Decidable (_ ∧ _))

/-- The days of a year. -/
def yearLength (y : ℤ) : ℕ := if IsLeap y then 366 else 365

/-- The days of a month. -/
def monthLength (y : ℤ) (m : ℕ) : ℕ :=
  if m = 2 then if IsLeap y then 29 else 28
  else if m = 4 ∨ m = 6 ∨ m = 9 ∨ m = 11 then 30
  else 31

/-- A date that exists. -/
structure Date where
  /-- The year. -/
  year : ℤ
  /-- The month, from 1 on. -/
  month : ℕ
  /-- The day of the month, from 1 on. -/
  day : ℕ
  /-- There is such a month. -/
  month_mem : 1 ≤ month ∧ month ≤ 12
  /-- It has such a day. -/
  day_mem : 1 ≤ day ∧ day ≤ monthLength year month

theorem monthLength_le (y : ℤ) (m : ℕ) : monthLength y m ≤ 31 := by
  unfold monthLength
  split_ifs <;> decide

theorem Date.day_le (t : Date) : t.day ≤ 31 := t.day_mem.2.trans (monthLength_le _ _)

/-! ### Counting days -/

/-- The days of the first `n` years from 1970 on. -/
def yearsBefore : ℕ → ℕ
  | 0 => 0
  | n + 1 => yearsBefore n + yearLength (1970 + n)

/-- The days of the first `n` months of a year. -/
def monthsBefore (y : ℤ) : ℕ → ℕ
  | 0 => 0
  | n + 1 => monthsBefore y n + monthLength y (n + 1)

/-- The days before a date, from 1970-01-01 on. -/
def Date.dayCount (t : Date) : ℕ :=
  yearsBefore (t.year - 1970).toNat + monthsBefore t.year (t.month - 1) + (t.day - 1)

theorem le_yearsBefore (n : ℕ) : 365 * n ≤ yearsBefore n := by
  induction n with
  | zero => exact le_rfl
  | succ n ih =>
    have hyear : 365 ≤ yearLength (1970 + n) := by
      unfold yearLength
      split_ifs <;> decide
    rw [yearsBefore, Nat.mul_succ]
    exact Nat.add_le_add ih hyear

/-- A count of days bounds the year. -/
theorem Date.year_le (t : Date) : t.year ≤ 1970 + t.dayCount / 365 := by
  have := le_yearsBefore (t.year - 1970).toNat
  unfold dayCount
  omega

/-! ### The closed form -/

/-- The days before March of a year `y`, from March of the year 0 on. -/
def marchDay (y : ℤ) : ℤ := 365 * y + y / 4 - y / 100 + y / 400

/-- The days of a year before one of its months, when it begins in March. -/
def monthDay (m : ℕ) : ℕ := (153 * (if m > 2 then m - 3 else m + 9) + 2) / 5

/-- The number of a day, in closed form: 719468 days lie between March of the year 0 and 1970. -/
def dayNumber (y : ℤ) (m d : ℕ) : ℤ :=
  marchDay (if m ≤ 2 then y - 1 else y) + monthDay m + (d - 1) - 719468

/-- The number of a date. -/
def Date.dayNumber (t : Date) : ℤ := Calendar.dayNumber t.year t.month t.day

/-- The year before that begins in March ends with the February of `y`. -/
theorem marchDay_succ (y : ℤ) : marchDay y = marchDay (y - 1) + yearLength y := by
  unfold marchDay yearLength
  split_ifs with h <;> unfold IsLeap at h <;> omega

/-- Every 400 years the calendar repeats. -/
theorem marchDay_era (e : ℤ) {n : ℕ} (h : n < 400) :
    marchDay (400 * e + n) = e * 146097 + (n * 365 + n / 4 - n / 100 : ℕ) := by
  have h4 : (400 * e + n) / 4 = 100 * e + (n / 4 : ℕ) := by omega
  have h100 : (400 * e + n) / 100 = 4 * e + (n / 100 : ℕ) := by omega
  have h400 : (400 * e + n) / 400 = e := by omega
  rw [marchDay, h4, h100, h400]
  omega

theorem dayNumber_epoch : dayNumber 1970 1 1 = 0 := by decide

/-- The first days of two months that follow each other. -/
theorem dayNumber_month {y : ℤ} {m : ℕ} (h : 1 ≤ m ∧ m < 12) :
    dayNumber y (m + 1) 1 = dayNumber y m 1 + monthLength y m := by
  have hyear := marchDay_succ y
  obtain ⟨h₁, h₂⟩ := h
  unfold yearLength at hyear
  unfold dayNumber monthLength monthDay
  interval_cases m
  case «2» => split_ifs at hyear ⊢ <;> simp_all <;> omega
  all_goals
    simp
    omega

/-- The first days of two years that follow each other. -/
theorem dayNumber_year (y : ℤ) : dayNumber (y + 1) 1 1 = dayNumber y 1 1 + yearLength y := by
  have hyear := marchDay_succ y
  simp only [dayNumber, Nat.one_le_ofNat, if_true, add_sub_cancel_right]
  omega

theorem dayNumber_years (n : ℕ) : dayNumber (1970 + n) 1 1 = yearsBefore n := by
  induction n with
  | zero => exact dayNumber_epoch
  | succ n ih =>
    rw [yearsBefore, Nat.cast_succ, Nat.cast_add, ← ih, ← add_assoc]
    exact dayNumber_year _

theorem dayNumber_months (y : ℤ) {n : ℕ} (hn : n < 12) :
    dayNumber y (n + 1) 1 = dayNumber y 1 1 + monthsBefore y n := by
  induction n with
  | zero => simp [monthsBefore]
  | succ n ih =>
    rw [dayNumber_month ⟨by omega, hn⟩, ih (by omega), monthsBefore, Nat.cast_add, add_assoc]

/-- **The closed form counts days.** -/
theorem Date.dayNumber_eq_dayCount (t : Date) (h : 1970 ≤ t.year) : t.dayNumber = t.dayCount := by
  have hmonth := dayNumber_months t.year (n := t.month - 1) (by have := t.month_mem; omega)
  have hyear := dayNumber_years (t.year - 1970).toNat
  have hday := t.day_mem.1
  rw [Nat.sub_add_cancel t.month_mem.1] at hmonth
  rw [show 1970 + ((t.year - 1970).toNat : ℤ) = t.year by omega] at hyear
  have hfirst : t.dayNumber = Calendar.dayNumber t.year t.month 1 + (t.day - 1) := by
    simp only [Date.dayNumber, Calendar.dayNumber]
    omega
  rw [hfirst, hmonth, hyear, dayCount]
  omega

/-! ### One date after the other -/

theorem one_le_monthLength (y : ℤ) (m : ℕ) : 1 ≤ monthLength y m := by
  unfold monthLength
  split_ifs <;> decide

attribute [ext] Date

/-- The date after a date: the next day of the month, or the first of the next month, or of the next
year. -/
def Date.next (t : Date) : Date :=
  if hd : t.day < monthLength t.year t.month then
    ⟨t.year, t.month, t.day + 1, t.month_mem, Nat.succ_pos _, hd⟩
  else if hm : t.month < 12 then
    ⟨t.year, t.month + 1, 1, ⟨Nat.succ_pos _, hm⟩, le_rfl, one_le_monthLength _ _⟩
  else ⟨t.year + 1, 1, 1, by decide, le_rfl, one_le_monthLength _ _⟩

/-- Earlier dates are less. -/
instance : LT Date where
  lt t u := t.year < u.year ∨ t.year = u.year ∧
    (t.month < u.month ∨ t.month = u.month ∧ t.day < u.day)

theorem Date.lt_def {t u : Date} :
    t < u ↔ t.year < u.year ∨ t.year = u.year ∧
      (t.month < u.month ∨ t.month = u.month ∧ t.day < u.day) := Iff.rfl

instance (t u : Date) : Decidable (t < u) := decidable_of_iff' _ Date.lt_def

theorem Date.lt_trichotomy (t u : Date) : t < u ∨ t = u ∨ u < t := by
  rw [lt_def, lt_def, Date.ext_iff]
  omega

/-- A date is so many days after the first of its month. -/
theorem Date.dayNumber_eq (t : Date) :
    t.dayNumber = Calendar.dayNumber t.year t.month 1 + (t.day - 1) := by
  simp only [Date.dayNumber, Calendar.dayNumber]
  omega

/-- After December comes January. -/
theorem dayNumber_december (y : ℤ) :
    dayNumber (y + 1) 1 1 = dayNumber y 12 1 + monthLength y 12 := by
  simp [dayNumber, monthDay, monthLength]
  omega

/-- **The closed form numbers the dates one after the other.** -/
theorem Date.dayNumber_next (t : Date) : t.next.dayNumber = t.dayNumber + 1 := by
  have hday := t.day_mem
  have hmonth := t.month_mem
  rw [t.dayNumber_eq]
  unfold next
  split_ifs with hd hm
  · rw [dayNumber_eq]
    push_cast
    omega
  · have hlast : t.day = monthLength t.year t.month := by omega
    rw [dayNumber_eq, dayNumber_month ⟨hmonth.1, hm⟩, hlast]
    push_cast
    omega
  · have hlast : t.day = monthLength t.year t.month := by omega
    have hdec : t.month = 12 := by omega
    rw [dayNumber_eq, dayNumber_december, hlast, hdec]
    push_cast
    omega

theorem monthsBefore_mono (y : ℤ) {m n : ℕ} (h : m ≤ n) : monthsBefore y m ≤ monthsBefore y n := by
  induction n, h using Nat.le_induction with
  | base => exact le_rfl
  | succ n _ ih => exact ih.trans (Nat.le_add_right _ _)

/-- The later of two months begins later. -/
theorem dayNumber_month_mono (y : ℤ) {m n : ℕ} (hm : 1 ≤ m) (h : m ≤ n) (hn : n ≤ 12) :
    dayNumber y m 1 ≤ dayNumber y n 1 := by
  obtain ⟨m, rfl⟩ := Nat.exists_eq_add_of_le' hm
  obtain ⟨n, rfl⟩ := Nat.exists_eq_add_of_le' (hm.trans h)
  have hle := monthsBefore_mono y (Nat.le_of_succ_le_succ h)
  have hfirst := dayNumber_months y (n := m) (by omega)
  have hlater := dayNumber_months y (n := n) (by omega)
  omega

/-- So does the later of two years. -/
theorem dayNumber_year_mono {y z : ℤ} (h : y ≤ z) : dayNumber y 1 1 ≤ dayNumber z 1 1 := by
  refine monotone_int_of_le_succ (f := fun y => dayNumber y 1 1) (fun y => ?_) h
  have hyear := dayNumber_year y
  omega

/-- A month lies within its year. -/
theorem Date.dayNumber_bounds (t : Date) :
    Calendar.dayNumber t.year 1 1 ≤ t.dayNumber ∧
      t.dayNumber < Calendar.dayNumber (t.year + 1) 1 1 := by
  have hday := t.day_mem
  obtain ⟨h1, h12⟩ := t.month_mem
  have hfirst := dayNumber_month_mono t.year le_rfl h1 h12
  rw [t.dayNumber_eq]
  refine ⟨by omega, ?_⟩
  rcases h12.lt_or_eq with hlt | hdec
  · have hnext := dayNumber_month ⟨h1, hlt⟩ (y := t.year)
    have hlast := dayNumber_month_mono t.year (m := t.month + 1) (Nat.succ_pos _) hlt le_rfl
    have hend := dayNumber_december t.year
    omega
  · have hend := dayNumber_december t.year
    rw [← hdec] at hend
    omega

/-- **Later dates have greater numbers.** -/
theorem Date.dayNumber_strictMono {t u : Date} (h : t < u) : t.dayNumber < u.dayNumber := by
  have ht := t.day_mem
  have hu := u.day_mem
  rcases Date.lt_def.mp h with hy | ⟨hy, hm | ⟨hm, hd⟩⟩
  · have hnext := dayNumber_year_mono (Int.add_one_le_of_lt hy)
    exact t.dayNumber_bounds.2.trans_le (hnext.trans u.dayNumber_bounds.1)
  · have hnext := dayNumber_month ⟨t.month_mem.1, hm.trans_le u.month_mem.2⟩ (y := t.year)
    have hmono := dayNumber_month_mono t.year (m := t.month + 1) (Nat.succ_pos _) hm u.month_mem.2
    rw [t.dayNumber_eq, u.dayNumber_eq, ← hy]
    omega
  · rw [t.dayNumber_eq, u.dayNumber_eq, hy, hm]
    omega

theorem Date.dayNumber_lt_iff {t u : Date} : t.dayNumber < u.dayNumber ↔ t < u := by
  constructor
  · intro h
    rcases lt_trichotomy t u with hlt | rfl | hgt
    · exact hlt
    · exact absurd h (lt_irrefl _)
    · exact absurd h (dayNumber_strictMono hgt).asymm
  · exact dayNumber_strictMono

theorem Date.dayNumber_injective : Function.Injective Date.dayNumber := fun t u h => by
  rcases lt_trichotomy t u with hlt | heq | hgt
  · exact absurd h (dayNumber_strictMono hlt).ne
  · exact heq
  · exact absurd h (dayNumber_strictMono hgt).ne'

end TradeFeed.Lib.Calendar
