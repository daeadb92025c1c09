import TradeFeed.Feed.Rfc3339

/-!
# Days since 1970

`days_from_civil` over all the years that it is meant for, from `INT_MIN + 400` on. Signed
arithmetic is undefined where it overflows, so it is written once more with every signed
operation checked (`daysFromCivilChecked`): none of them overflows. It gives 0 for
1970-01-01, and for each date one more than for the date before, and hence tells any two
dates apart and puts them in order (`days_exact`).
-/

namespace TradeFeed.Feed

open Lib.Calendar

/-! ### Checked arithmetic -/

/-- The result of a signed operation, which is undefined if it overflows. -/
def unlessOverflow {α : Type*} (overflow : Bool) (result : α) : Option α :=
  if overflow then none else some result

/-- `a - b` of `int`. -/
def subInt (a b : Int32) : Option Int32 :=
  unlessOverflow (a.toBitVec.ssubOverflow b.toBitVec) (a - b)

/-- `a + b` of `int64_t`. -/
def addInt64 (a b : Int64) : Option Int64 :=
  unlessOverflow (a.toBitVec.saddOverflow b.toBitVec) (a + b)

/-- `a - b` of `int64_t`. -/
def subInt64 (a b : Int64) : Option Int64 :=
  unlessOverflow (a.toBitVec.ssubOverflow b.toBitVec) (a - b)

/-- `a * b` of `int64_t`. -/
def mulInt64 (a b : Int64) : Option Int64 :=
  unlessOverflow (a.toBitVec.smulOverflow b.toBitVec) (a * b)

/-- `days_from_civil(y, m, d)`, undefined where signed arithmetic overflows. (A division does
so only by -1.) -/
def daysFromCivilChecked (y : Int32) (m d : UInt32) : Option Int64 := do
  let y ← (if m ≤ 2 then subInt y 1 else some y)
  let low ← (if y ≥ 0 then some y else subInt y 399)
  let era := (low / 400).toInt64
  let eraYear ← mulInt64 era 400
  let inEra ← subInt64 y.toInt64 eraYear
  let yoe := inEra.toUInt64.toUInt32
  let doy := (153 * (m + if m > 2 then (-3 : Int32).toUInt32 else 9) + 2) / 5 + d - 1
  let doe := yoe * 365 + yoe / 4 - yoe / 100 + doy
  let eraDay ← mulInt64 era 146097
  let day ← addInt64 eraDay doe.toUInt64.toInt64
  subInt64 day 719468

/-! An operation with the exact result has not overflowed. -/

theorem subInt_eq {a b : Int32} (h : (a - b).toInt = a.toInt - b.toInt) :
    subInt a b = some (a - b) := by
  have hlow := (a - b).le_toInt
  have hhigh := (a - b).toInt_lt
  rw [h] at hlow hhigh
  have hno : a.toBitVec.ssubOverflow b.toBitVec = false := by
    simp only [BitVec.ssubOverflow, Bool.or_eq_false_iff, decide_eq_false_iff_not,
      Int32.toInt_toBitVec]
    omega
  rw [subInt, hno]
  rfl

theorem addInt64_eq {a b : Int64} (h : (a + b).toInt = a.toInt + b.toInt) :
    addInt64 a b = some (a + b) := by
  have hlow := (a + b).le_toInt
  have hhigh := (a + b).toInt_lt
  rw [h] at hlow hhigh
  have hno : a.toBitVec.saddOverflow b.toBitVec = false := by
    simp only [BitVec.saddOverflow, Bool.or_eq_false_iff, decide_eq_false_iff_not,
      Int64.toInt_toBitVec]
    omega
  rw [addInt64, hno]
  rfl

theorem subInt64_eq {a b : Int64} (h : (a - b).toInt = a.toInt - b.toInt) :
    subInt64 a b = some (a - b) := by
  have hlow := (a - b).le_toInt
  have hhigh := (a - b).toInt_lt
  rw [h] at hlow hhigh
  have hno : a.toBitVec.ssubOverflow b.toBitVec = false := by
    simp only [BitVec.ssubOverflow, Bool.or_eq_false_iff, decide_eq_false_iff_not,
      Int64.toInt_toBitVec]
    omega
  rw [subInt64, hno]
  rfl

theorem mulInt64_eq {a b : Int64} (h : (a * b).toInt = a.toInt * b.toInt) :
    mulInt64 a b = some (a * b) := by
  have hlow := (a * b).le_toInt
  have hhigh := (a * b).toInt_lt
  rw [h] at hlow hhigh
  have hno : a.toBitVec.smulOverflow b.toBitVec = false := by
    simp only [BitVec.smulOverflow, Bool.or_eq_false_iff, decide_eq_false_iff_not,
      Int64.toInt_toBitVec]
    omega
  rw [mulInt64, hno]
  rfl

/-! ### No overflow -/

/-- **No signed operation overflows**, whatever the month and the day. -/
theorem daysFromCivilChecked_eq {y : Int32} (hy : -2 ^ 31 + 400 ≤ y.toInt) (m d : UInt32) :
    daysFromCivilChecked y m d = some (daysFromCivil y m d) := by
  have hyear : (if m ≤ 2 then subInt y 1 else some y) = some (if m ≤ 2 then y - 1 else y) := by
    have hone : (y - 1).toInt = y.toInt - (1 : Int32).toInt :=
      sub_toInt (show -2 ^ 31 + 1 ≤ y.toInt by omega) (by decide)
    rw [subInt_eq hone]
    split_ifs <;> rfl
  have hmarch := marchYear_toInt (y := y) (by omega) m
  simp only [daysFromCivilChecked, daysFromCivil, hyear, Option.bind_eq_bind, Option.bind_some]
  generalize (if m ≤ 2 then y - 1 else y) = y' at *
  have hy' : -2 ^ 31 + 399 ≤ y'.toInt := by rw [hmarch]; split_ifs <;> omega
  have hlow : (if y' ≥ 0 then some y' else subInt y' 399) =
      some (if y' ≥ 0 then y' else y' - 399) := by
    have hera : (y' - 399).toInt = y'.toInt - (399 : Int32).toInt := sub_toInt hy' (by decide)
    rw [subInt_eq hera]
    split_ifs <;> rfl
  have hera := era_toInt hy'
  rw [hlow, Option.bind_some]
  generalize (if y' ≥ 0 then y' else y' - 399) / 400 = era at *
  have hstart : (era.toInt64 * 400).toInt = era.toInt64.toInt * (400 : Int64).toInt := by
    rw [eraYear_toInt, era.toInt_toInt64]
    rfl
  have hinEra : (y'.toInt64 - era.toInt64 * 400).toInt = y'.toInt64.toInt -
      (era.toInt64 * 400).toInt := by
    rw [inEra_toInt hera, eraYear_toInt, y'.toInt_toInt64]
    omega
  rw [mulInt64_eq hstart, Option.bind_some, subInt64_eq hinEra, Option.bind_some]
  generalize (y'.toInt64 - era.toInt64 * 400).toUInt64.toUInt32 = yoe
  generalize yoe * 365 + yoe / 4 - yoe / 100 + _ = doe
  have heraDay : (era.toInt64 * 146097).toInt = era.toInt64.toInt * (146097 : Int64).toInt := by
    rw [eraDays_toInt, era.toInt_toInt64]
    rfl
  have hday : (era.toInt64 * 146097 + doe.toUInt64.toInt64).toInt =
      (era.toInt64 * 146097).toInt + doe.toUInt64.toInt64.toInt := by
    rw [marchDay_toInt, eraDays_toInt, toInt_toInt64]
  have hepoch : (era.toInt64 * 146097 + doe.toUInt64.toInt64 - 719468).toInt =
      (era.toInt64 * 146097 + doe.toUInt64.toInt64).toInt - (719468 : Int64).toInt := by
    rw [eraDay_toInt, marchDay_toInt]
    rfl
  rw [mulInt64_eq heraDay, Option.bind_some, addInt64_eq hday, Option.bind_some, subInt64_eq hepoch]

/-! ### Dates -/

/-- The year is one that `days_from_civil` is meant for. -/
def YearInRange (t : Date) : Prop := -2 ^ 31 + 400 ≤ t.year ∧ t.year ≤ 2 ^ 31 - 1

instance (t : Date) : Decidable (YearInRange t) := inferInstanceAs (Decidable (_ ∧ _))

/-- `days_from_civil` of a date. -/
def civilDays (t : Date) : Int64 :=
  daysFromCivil (Int32.ofInt t.year) (UInt32.ofNat t.month) (UInt32.ofNat t.day)

/-- The same, with checks. -/
def civilDaysChecked (t : Date) : Option Int64 :=
  daysFromCivilChecked (Int32.ofInt t.year) (UInt32.ofNat t.month) (UInt32.ofNat t.day)

theorem YearInRange.toInt_ofInt {t : Date} (h : YearInRange t) :
    (Int32.ofInt t.year).toInt = t.year := by
  obtain ⟨hlow, hhigh⟩ := h
  exact Int32.toInt_ofInt_of_le (by omega) (by omega)

/-- It is the number of the date. -/
theorem civilDays_toInt {t : Date} (h : YearInRange t) : (civilDays t).toInt = t.dayNumber := by
  have hmonth := t.month_mem
  have hday := t.day_mem
  have hle := t.day_le
  have hm : (UInt32.ofNat t.month).toNat = t.month :=
    UInt32.toNat_ofNat_of_lt' (by show _ < 2 ^ 32; omega)
  have hd : (UInt32.ofNat t.day).toNat = t.day :=
    UInt32.toNat_ofNat_of_lt' (by show _ < 2 ^ 32; omega)
  have hdays := daysFromCivil_toInt (y := Int32.ofInt t.year) (m := UInt32.ofNat t.month)
    (d := UInt32.ofNat t.day) (by rw [h.toInt_ofInt]; exact h.1) (by rw [hm]; exact hmonth)
    (by rw [hd]; omega)
  rw [civilDays, hdays, h.toInt_ofInt, hm, hd]
  rfl

/-- **`days_from_civil` counts calendar days**: 1970-01-01 has 0, and each date one more than the
date before. No signed operation overflows, and the shift of the months wraps around and back.
Later dates have greater numbers, and no two dates the same. -/
theorem days_exact :
    daysFromCivil 1970 1 1 = 0 ∧
      (∀ t, YearInRange t → civilDaysChecked t = some (civilDays t) ∧
        (UInt32.ofNat t.month +
            if UInt32.ofNat t.month > 2 then (-3 : Int32).toUInt32 else 9).toNat =
          (if t.month > 2 then t.month - 3 else t.month + 9) ∧
        (YearInRange t.next → (civilDays t.next).toInt = (civilDays t).toInt + 1)) ∧
      (∀ t u, YearInRange t → YearInRange u → (civilDays t < civilDays u ↔ t < u)) ∧
      ∀ t u, YearInRange t → YearInRange u → civilDays t = civilDays u → t = u := by
  refine ⟨by decide,
    fun t h => ⟨?_, ?_, fun hnext => ?_⟩, fun t u ht hu => ?_, fun t u ht hu heq => ?_⟩
  · exact daysFromCivilChecked_eq (by rw [h.toInt_ofInt]; exact h.1) _ _
  · have hmonth := t.month_mem
    have hm : (UInt32.ofNat t.month).toNat = t.month :=
      UInt32.toNat_ofNat_of_lt' (by show _ < 2 ^ 32; omega)
    rw [monthShift_toNat (by omega), hm]
  · rw [civilDays_toInt hnext, civilDays_toInt h, t.dayNumber_next]
  · rw [Int64.lt_iff_toInt_lt, civilDays_toInt ht, civilDays_toInt hu, Date.dayNumber_lt_iff]
  · apply Date.dayNumber_injective
    rw [← civilDays_toInt ht, ← civilDays_toInt hu, heq]

/-- The day before the leap day of 2024. -/
def beforeLeapDay : Date := ⟨2024, 2, 28, by decide, by decide⟩

/-- The leap day is counted. -/
theorem days_exact_leap :
    beforeLeapDay.next.month = 2 ∧ beforeLeapDay.next.day = 29 ∧ civilDays beforeLeapDay = 19781 ∧
      civilDaysChecked beforeLeapDay = some (civilDays beforeLeapDay) ∧
      (civilDays beforeLeapDay.next).toInt = (civilDays beforeLeapDay).toInt + 1 ∧
      (civilDays beforeLeapDay < civilDays beforeLeapDay.next ↔
        beforeLeapDay < beforeLeapDay.next) := by
  obtain ⟨-, hstep, horder, -⟩ := days_exact
  have hrange : YearInRange beforeLeapDay := by decide
  have hnext : YearInRange beforeLeapDay.next := by decide
  obtain ⟨hchecked, -, hsucc⟩ := hstep _ hrange
  exact ⟨by decide, by decide, by decide, hchecked, hsucc hnext, horder _ _ hrange hnext⟩

end TradeFeed.Feed
