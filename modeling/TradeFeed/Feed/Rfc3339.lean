import TradeFeed.Feed.Normalizer
import TradeFeed.Lib.Calendar
import TradeFeed.Lib.Json

/-!
# Time stamps

`parse_rfc3339_ns` reads the fields of a time stamp at their places and counts the days by
the closed form that the calendar has (`daysFromCivil_toInt`). A `DateTime` is a moment
that exists, with any number of digits of a second, and `DateTime.text` is how it is
written.

* No step on the way wraps around but the shift of the months, which wraps back. `Int64` and
  `UInt64` arithmetic on numbers of the form `ofNat n` needs no bounds, so that only the
  result must be below 2^64.
* The first loop over the fraction cuts it off at nine digits and the second one fills it up
  (`fraction_digits`).
-/

namespace TradeFeed.Feed

open Lib.Calendar
open Lib.Json (digit decimal toDecimal ofDecimal ofDecimal_toDecimal ofDecimal_take foldl_ofDecimal
  length_decimal)

/-! ### Days -/

/-- A subtraction that stays above the least `int`. -/
theorem sub_toInt {y k : Int32} (h : -2 ^ 31 + k.toInt ≤ y.toInt) (hk : 0 ≤ k.toInt) :
    (y - k).toInt = y.toInt - k.toInt := by
  have hlt := y.toInt_lt
  rw [Int32.toInt_sub]
  exact Int.bmod_eq_of_le (by omega) (by omega)

/-- The quotient that `days_from_civil` divides the years into eras with rounds down. -/
theorem era_toInt {y : Int32} (h : -2 ^ 31 + 399 ≤ y.toInt) :
    ((if y ≥ 0 then y else y - 399) / 400).toInt = y.toInt / 400 := by
  have hsub : (y - 399).toInt = y.toInt - 399 := sub_toInt h (by decide)
  rw [Int32.toInt_div_of_ne_right _ _ (by decide), show (400 : Int32).toInt = 400 from rfl]
  split_ifs with h0
  · exact Int.tdiv_eq_ediv_of_nonneg (Int32.le_iff_toInt_le.mp h0)
  · have hneg : y.toInt < 0 := not_le.mp fun h => h0 (Int32.le_iff_toInt_le.mpr h)
    rw [hsub, Int.tdiv_eq_ediv, show Int.sign 400 = 1 from rfl]
    omega

theorem toNat_toUInt32_of_toInt {x : Int64} {n : ℕ} (h : x.toInt = n) (hn : n < 2 ^ 32) :
    x.toUInt64.toUInt32.toNat = n := by
  have hx : x = Int64.ofNat n := Int64.toInt_inj.mp (by rw [h, Int64.toInt_ofNat_of_lt (by omega)])
  rw [hx, Int64.toUInt64_ofNat', UInt64.toUInt32_ofNat', UInt32.toNat_ofNat_of_lt' hn]

theorem toInt_toInt64 (x : UInt32) : x.toUInt64.toInt64.toInt = x.toNat := by
  have hlt := x.toNat_lt
  have hx : x.toUInt64 = UInt64.ofNat x.toNat := UInt64.toNat_inj.mp (by simp)
  rw [hx, UInt64.toInt64_ofNat', Int64.toInt_ofNat_of_lt (by omega)]

/-- Where an era begins. -/
theorem eraYear_toInt (era : Int32) : (era.toInt64 * 400).toInt = era.toInt * 400 := by
  have hlow := Int32.le_toInt era
  have hhigh := Int32.toInt_lt era
  rw [Int64.toInt_mul, Int32.toInt_toInt64, show (400 : Int64).toInt = 400 from rfl]
  exact Int.bmod_eq_of_le (by omega) (by omega)

theorem eraDays_toInt (era : Int32) : (era.toInt64 * 146097).toInt = era.toInt * 146097 := by
  have hlow := Int32.le_toInt era
  have hhigh := Int32.toInt_lt era
  rw [Int64.toInt_mul, Int32.toInt_toInt64, show (146097 : Int64).toInt = 146097 from rfl]
  exact Int.bmod_eq_of_le (by omega) (by omega)

/-- The year of the era. -/
theorem inEra_toInt {y era : Int32} (h : era.toInt = y.toInt / 400) :
    (y.toInt64 - era.toInt64 * 400).toInt = (y.toInt % 400).toNat := by
  have hlow := Int32.le_toInt y
  have hhigh := Int32.toInt_lt y
  rw [Int64.toInt_sub, Int32.toInt_toInt64, eraYear_toInt, Int.bmod_eq_of_le (by omega) (by omega)]
  omega

theorem yoe_toNat {y era : Int32} (h : era.toInt = y.toInt / 400) :
    (y.toInt64 - era.toInt64 * 400).toUInt64.toUInt32.toNat = (y.toInt % 400).toNat :=
  toNat_toUInt32_of_toInt (inEra_toInt h) (by omega)

theorem monthDay_le {m : ℕ} (h : m ≤ 12) : monthDay m ≤ 337 := by
  unfold monthDay
  split_ifs <;> omega

/-- The shift of the months wraps around and back. -/
theorem monthShift_toNat {m : UInt32} (hm : m.toNat ≤ 12) :
    (m + if m > 2 then (-3 : Int32).toUInt32 else 9).toNat =
      if m.toNat > 2 then m.toNat - 3 else m.toNat + 9 := by
  have hthree : (-3 : Int32).toUInt32.toNat = 2 ^ 32 - 3 := by decide
  have hlt : m > 2 ↔ m.toNat > 2 := UInt32.lt_iff_toNat_lt
  simp only [hlt]
  split_ifs with h
  · rw [UInt32.toNat_add, hthree]
    omega
  · rw [UInt32.toNat_add, show (9 : UInt32).toNat = 9 from rfl]
    omega

/-- The day of the year. -/
theorem doy_toNat {m d : UInt32} (hm : 1 ≤ m.toNat ∧ m.toNat ≤ 12)
    (hd : 1 ≤ d.toNat ∧ d.toNat ≤ 31) :
    ((153 * (m + if m > 2 then (-3 : Int32).toUInt32 else 9) + 2) / 5 + d - 1).toNat =
      monthDay m.toNat + (d.toNat - 1) := by
  have hshift := monthShift_toNat hm.2
  have hle : (if m.toNat > 2 then m.toNat - 3 else m.toNat + 9) ≤ 11 := by split_ifs <;> omega
  simp only [monthDay, UInt32.toNat_sub, UInt32.toNat_add, UInt32.toNat_div, UInt32.toNat_mul,
    hshift, UInt32.reduceToNat]
  generalize (if m.toNat > 2 then m.toNat - 3 else m.toNat + 9) = k at hle
  rw [show (153 * k % 2 ^ 32 + 2) % 2 ^ 32 = 153 * k + 2 by omega]
  omega

/-- The day of the era. -/
theorem doe_toNat (yoe doy : UInt32) (hyoe : yoe.toNat < 400) (hdoy : doy.toNat ≤ 367) :
    (yoe * 365 + yoe / 4 - yoe / 100 + doy).toNat = yoe.toNat * 365 + yoe.toNat / 4 -
      yoe.toNat / 100 + doy.toNat := by
  simp only [UInt32.toNat_sub, UInt32.toNat_add, UInt32.toNat_div, UInt32.toNat_mul,
    UInt32.reduceToNat]
  omega

/-- The day, of the era and the day in it, before it is counted from 1970 on. -/
theorem marchDay_toInt (era : Int32) (doe : UInt32) :
    (era.toInt64 * 146097 + doe.toUInt64.toInt64).toInt = era.toInt * 146097 + doe.toNat := by
  have hlow := Int32.le_toInt era
  have hhigh := Int32.toInt_lt era
  have hlt := doe.toNat_lt
  rw [Int64.toInt_add, eraDays_toInt, toInt_toInt64]
  exact Int.bmod_eq_of_le (by omega) (by omega)

theorem eraDay_toInt (era : Int32) (doe : UInt32) :
    (era.toInt64 * 146097 + doe.toUInt64.toInt64 - 719468).toInt =
      era.toInt * 146097 + doe.toNat - 719468 := by
  have hlow := Int32.le_toInt era
  have hhigh := Int32.toInt_lt era
  have hlt := doe.toNat_lt
  rw [Int64.toInt_sub, marchDay_toInt, show (719468 : Int64).toInt = 719468 from rfl]
  exact Int.bmod_eq_of_le (by omega) (by omega)

/-- The year, when it begins in March. -/
theorem marchYear_toInt {y : Int32} (hy : -2 ^ 31 + 1 ≤ y.toInt) (m : UInt32) :
    (if m ≤ 2 then y - 1 else y).toInt = if m.toNat ≤ 2 then y.toInt - 1 else y.toInt := by
  have hle : m ≤ 2 ↔ m.toNat ≤ 2 := UInt32.le_iff_toNat_le
  simp only [hle]
  split_ifs
  · exact sub_toInt hy (by decide)
  · rfl

/-- **`days_from_civil` is the closed form.** -/
theorem daysFromCivil_toInt {y : Int32} {m d : UInt32} (hy : -2 ^ 31 + 400 ≤ y.toInt)
    (hm : 1 ≤ m.toNat ∧ m.toNat ≤ 12) (hd : 1 ≤ d.toNat ∧ d.toNat ≤ 31) :
    (daysFromCivil y m d).toInt = dayNumber y.toInt m.toNat d.toNat := by
  have hyear := marchYear_toInt (y := y) (by omega) m
  have hdoy := doy_toNat hm hd
  simp only [daysFromCivil]
  generalize (if m ≤ 2 then y - 1 else y) = y' at *
  generalize (153 * (m + if m > 2 then (-3 : Int32).toUInt32 else 9) + 2) / 5 + d - 1 = doy at *
  have hera := era_toInt (y := y') (by rw [hyear]; split_ifs <;> omega)
  generalize (if y' ≥ 0 then y' else y' - 399) / 400 = era at *
  have hyoe := yoe_toNat hera
  generalize (y'.toInt64 - era.toInt64 * 400).toUInt64.toUInt32 = yoe at *
  have hdoe := doe_toNat yoe doy (by omega) (by have := monthDay_le hm.2; omega)
  generalize yoe * 365 + yoe / 4 - yoe / 100 + doy = doe at *
  have hmarch := marchDay_era (y'.toInt / 400) (n := yoe.toNat) (by omega)
  rw [show 400 * (y'.toInt / 400) + (yoe.toNat : ℤ) = y'.toInt by omega, ← hera] at hmarch
  have hday : (d.toNat : ℤ) - 1 = (d.toNat - 1 : ℕ) := by omega
  rw [eraDay_toInt, dayNumber, ← hyear, hmarch, hdoe, hdoy, hday, Nat.cast_add, Nat.cast_add]
  ring

/-! ### Moments -/

/-- A moment in UTC from 1970 on, in the precision in which it is written. -/
structure DateTime where
  /-- The date. -/
  date : Date
  /-- The hour. -/
  hour : ℕ
  /-- The minute. -/
  minute : ℕ
  /-- The second. -/
  second : ℕ
  /-- The digits of the fraction of a second, if there is a point. -/
  fraction : Option (List (Fin 10))
  /-- It is not before the epoch. -/
  from_epoch : 1970 ≤ date.year
  /-- There is such an hour. -/
  hour_lt : hour < 24
  /-- There is such a minute. -/
  minute_lt : minute < 60
  /-- There is such a second. -/
  second_lt : second < 60

namespace DateTime

/-- The end of how a moment is written: the fraction and `Z`. -/
def ending : Option (List (Fin 10)) → List UInt8
  | none => [90]
  | some ds => 46 :: (ds.map digit ++ [90])

/-- How it is written. -/
def text (t : DateTime) : List UInt8 :=
  decimal 4 t.date.year.toNat ++ 45 ::
    (decimal 2 t.date.month ++ 45 :: (decimal 2 t.date.day ++ 84 ::
    (decimal 2 t.hour ++ 58 ::
      (decimal 2 t.minute ++ 58 :: (decimal 2 t.second ++ ending t.fraction)))))

/-- The seconds from the epoch on. -/
def seconds (t : DateTime) : ℕ := t.date.dayCount * 86400 + t.hour * 3600 + t.minute * 60 + t.second

/-- The time from the epoch on, in seconds. -/
def instant (t : DateTime) : ℚ :=
  t.seconds + (t.fraction.map fun ds => (ofDecimal ds / 10 ^ ds.length : ℚ)).getD 0

/-- The fraction of a second in nanoseconds, without what is left. -/
def fractionNs (t : DateTime) : ℕ :=
  (t.fraction.map fun ds => ofDecimal ds * 10 ^ 9 / 10 ^ ds.length).getD 0

/-- The nanoseconds from the epoch on. -/
def nanoseconds (t : DateTime) : ℕ := t.seconds * 10 ^ 9 + t.fractionNs

/-- They are the time from the epoch on. -/
theorem floor_instant (t : DateTime) : ⌊t.instant * 10 ^ 9⌋ = t.nanoseconds := by
  rw [instant, nanoseconds, fractionNs]
  cases t.fraction with
  | none =>
    simp only [Option.map_none, Option.getD_none, add_zero]
    exact_mod_cast Int.floor_natCast (R := ℚ) _
  | some ds =>
    simp only [Option.map_some, Option.getD_some]
    have hsplit : ((t.seconds : ℚ) + ofDecimal ds / 10 ^ ds.length) * 10 ^ 9 =
        ((t.seconds * 10 ^ 9 : ℕ) : ℚ) + ((ofDecimal ds * 10 ^ 9 : ℕ) : ℚ) /
          ((10 ^ ds.length : ℕ) : ℚ) := by
      push_cast
      ring
    rw [hsplit, Int.floor_natCast_add, Rat.floor_natCast_div_natCast]
    norm_cast

end DateTime

/-! ### Digits -/

section Digits

variable {c : UInt8} {rest : List UInt8}

theorem isDigit_digit (d : Fin 10) : isDigit (digit d) = true := by
  revert d
  decide

theorem digitValue_digit (d : Fin 10) : digitValue (digit d) = Int64.ofNat d.val := by
  revert d
  decide

theorem numLoop_digits (n : ℕ) (ds : List (Fin 10)) :
    numLoop (Int64.ofNat n) (ds.map digit) = Int64.ofNat (n * 10 ^ ds.length + ofDecimal ds) := by
  rw [← foldl_ofDecimal]
  induction ds generalizing n with
  | nil => rfl
  | cons d ds ih =>
    rw [List.map_cons, numLoop, if_pos (isDigit_digit d), digitValue_digit, List.foldl_cons, ← ih,
      Int64.ofNat_add, Int64.ofNat_mul]
    rfl

/-- A field of a fixed shape. -/
theorem num_decimal {s : List UInt8} {off k n : ℕ} (pre : List UInt8) (h : pre ++ decimal k n <+: s)
    (hoff : pre.length = off) (hn : n < 10 ^ k) : num s off k = Int64.ofNat n := by
  have htake : ((s.drop off).take k) = decimal k n := by
    obtain ⟨post, rfl⟩ := h
    rw [List.append_assoc, List.drop_left' hoff, List.take_left' (length_decimal k n)]
  rw [num, htake, decimal]
  apply (numLoop_digits 0 _).trans
  rw [Nat.zero_mul, Nat.zero_add, ofDecimal_toDecimal, Nat.mod_eq_of_lt hn]

/-- The first loop reads nine digits at most. -/
theorem fractionLoop_digits (hc : isDigit c = false) (rest : List UInt8) (ds : List (Fin 10))
    (n k : ℕ) (hk : k ≤ 9) :
    fractionLoop (Int64.ofNat n) k (ds.map digit ++ c :: rest) =
      (Int64.ofNat (n * 10 ^ (ds.take (9 - k)).length + ofDecimal (ds.take (9 - k))),
        k + min (9 - k) ds.length) := by
  rw [← foldl_ofDecimal]
  induction ds generalizing n k with
  | nil => simp [fractionLoop, hc]
  | cons d ds ih =>
    rw [List.map_cons, List.cons_append, fractionLoop]
    rcases hk.lt_or_eq with hlt | rfl
    · have hsucc : 9 - k = (9 - (k + 1)) + 1 := by omega
      have hcount : k + min (9 - (k + 1) + 1) (ds.length + 1) = k + 1 +
        min (9 - (k + 1)) ds.length := by omega
      rw [if_pos (by simp [isDigit_digit, hlt]), digitValue_digit, hsucc, List.take_succ_cons,
        List.foldl_cons, List.length_cons, hcount, ← ih _ _ hlt, Int64.ofNat_add, Int64.ofNat_mul]
      rfl
    · simp

theorem padLoop_ofNat (n k : ℕ) : padLoop (Int64.ofNat n) k = Int64.ofNat (n * 10 ^ k) := by
  induction k generalizing n with
  | zero => simp [padLoop]
  | succ k ih =>
    rw [padLoop, pow_succ', ← Nat.mul_assoc, ← ih, Int64.ofNat_mul]
    rfl

/-- **The two loops** scale the fraction to nanoseconds. -/
theorem fraction_digits (hc : isDigit c = false) (ds : List (Fin 10)) :
    padLoop (fractionLoop 0 0 (ds.map digit ++ c :: rest)).1
      (9 - (fractionLoop 0 0 (ds.map digit ++ c :: rest)).2) =
      Int64.ofNat (ofDecimal ds * 10 ^ 9 / 10 ^ ds.length) := by
  have hloop := fractionLoop_digits hc rest ds 0 0 (by decide)
  rw [show Int64.ofNat 0 = 0 from rfl] at hloop
  rw [hloop, Nat.zero_mul, Nat.zero_add, Nat.zero_add, padLoop_ofNat, Nat.sub_zero, ofDecimal_take]
  congr 1
  rcases le_total ds.length 9 with h | h
  · rw [Nat.sub_eq_zero_of_le h, pow_zero, Nat.div_one, min_eq_right h, ← Nat.sub_add_cancel h,
      pow_add, Nat.add_sub_cancel, ← Nat.mul_assoc, Nat.mul_div_cancel _ (pow_pos (by decide) _)]
  · rw [min_eq_left h, Nat.sub_self, pow_zero, Nat.mul_one, ← Nat.sub_add_cancel h, pow_add,
      Nat.add_sub_cancel, Nat.mul_div_mul_right _ _ (pow_pos (by decide) _)]

end Digits

/-! ### Whole time stamps -/

namespace DateTime

variable {t : DateTime}

/-- There are nanoseconds for it, so it has a year of four digits. -/
theorem year_lt (h : t.nanoseconds < 2 ^ 64) : t.date.year.toNat < 10 ^ 4 := by
  have hyear := t.date.year_le
  have hcount : t.date.dayCount * 86400 ≤ t.seconds := by
    unfold seconds
    omega
  have hsecs : t.seconds * 10 ^ 9 ≤ t.nanoseconds := Nat.le_add_right _ _
  omega

/-- The days that the parser counts. -/
theorem days_text (t : DateTime) (h : t.date.year.toNat < 10 ^ 4) :
    daysFromCivil (Int64.ofNat t.date.year.toNat).toInt32
      (Int64.ofNat t.date.month).toUInt64.toUInt32
      (Int64.ofNat t.date.day).toUInt64.toUInt32 = Int64.ofNat t.date.dayCount := by
  have hmonth := t.date.month_mem
  have hday := t.date.day_mem
  have hdayLe := t.date.day_le
  have hyear : (Int64.ofNat t.date.year.toNat).toInt32.toInt = t.date.year := by
    rw [Int64.toInt32_ofNat', Int32.toInt_ofNat_of_lt (by omega),
      Int.toNat_of_nonneg (by have := t.from_epoch; omega)]
  have hm : (Int64.ofNat t.date.month).toUInt64.toUInt32.toNat = t.date.month :=
    toNat_toUInt32_of_toInt (Int64.toInt_ofNat_of_lt (by omega)) (by omega)
  have hd : (Int64.ofNat t.date.day).toUInt64.toUInt32.toNat = t.date.day :=
    toNat_toUInt32_of_toInt (Int64.toInt_ofNat_of_lt (by omega)) (by omega)
  have hdays := daysFromCivil_toInt (y := (Int64.ofNat t.date.year.toNat).toInt32)
    (by rw [hyear]; have := t.from_epoch; omega)
    (hm.symm ▸ hmonth) (hd.symm ▸ And.intro hday.1 hdayLe)
  rw [hyear, hm, hd] at hdays
  rw [← Int64.ofInt_toInt (daysFromCivil _ _ _), hdays]
  exact congrArg _ (t.date.dayNumber_eq_dayCount t.from_epoch)

/-- The nanoseconds that the parser reads behind the seconds. -/
theorem fraction_text (t : DateTime) :
    (if t.text.length > 20 && t.text[19]? = some 46 then
      padLoop (fractionLoop 0 0 (t.text.drop 20)).1 (9 - (fractionLoop 0 0 (t.text.drop 20)).2)
        else 0) =
      Int64.ofNat t.fractionNs := by
  obtain ⟨pre, hpre, htext⟩ :
      ∃ pre : List UInt8, pre.length = 19 ∧ t.text = pre ++ ending t.fraction :=
    ⟨decimal 4 t.date.year.toNat ++ 45 ::
      (decimal 2 t.date.month ++ 45 :: (decimal 2 t.date.day ++ 84 ::
      (decimal 2 t.hour ++ 58 :: (decimal 2 t.minute ++ 58 :: decimal 2 t.second)))), by simp, by
        simp [text]⟩
  rw [htext, fractionNs]
  cases t.fraction with
  | none => simp [ending, hpre]
  | some ds =>
    have hnext : (pre ++ ending (some ds))[19]? = some 46 := by
      rw [List.getElem?_append_right hpre.le, hpre]
      rfl
    have hdrop : (pre ++ ending (some ds)).drop 20 = ds.map digit ++ [90] := by
      rw [List.drop_append, List.drop_eq_nil_of_le (by omega), hpre]
      rfl
    have hlen : (pre ++ ending (some ds)).length > 20 := by
      simp only [ending, List.length_append, List.length_cons, hpre]
      omega
    rw [if_pos (by simp only [hnext, hlen, decide_true, Bool.and_true]), hdrop]
    exact fraction_digits (by decide) ds

end DateTime

/-- The fields that the parser reads. -/
theorem num_text {t : DateTime} (h : t.date.year.toNat < 10 ^ 4) :
    num t.text 0 4 = Int64.ofNat t.date.year.toNat ∧ num t.text 5 2 = Int64.ofNat t.date.month ∧
      num t.text 8 2 = Int64.ofNat t.date.day ∧ num t.text 11 2 = Int64.ofNat t.hour ∧
      num t.text 14 2 = Int64.ofNat t.minute ∧ num t.text 17 2 = Int64.ofNat t.second := by
  have hmonth := t.date.month_mem
  have hday := t.date.day_le
  have hhour := t.hour_lt
  have hminute := t.minute_lt
  have hsecond := t.second_lt
  -- what stands before each field
  let year := decimal 4 t.date.year.toNat ++ [45]
  let month := year ++ (decimal 2 t.date.month ++ [45])
  let day := month ++ (decimal 2 t.date.day ++ [84])
  let hour := day ++ (decimal 2 t.hour ++ [58])
  let minute := hour ++ (decimal 2 t.minute ++ [58])
  have htext : t.text = minute ++ (decimal 2 t.second ++ DateTime.ending t.fraction) := by
    simp [DateTime.text, year, month, day, hour, minute]
  refine ⟨num_decimal [] ?_ rfl h, num_decimal year ?_ rfl (by omega),
    num_decimal month ?_ rfl (by omega), num_decimal day ?_ rfl (by omega),
    num_decimal hour ?_ rfl (by omega), num_decimal minute ?_ rfl (by omega)⟩
  all_goals
    rw [htext]
    simp [year, month, day, hour, minute]

/-- **A time stamp is read as the nanoseconds** from the epoch on, if there are fewer than 2^64. -/
theorem parse_text {t : DateTime} (h : t.nanoseconds < 2 ^ 64) :
    (parseRfc3339Ns t.text).toNat = t.nanoseconds := by
  have hlen : ¬ t.text.length < 20 := by
    have : 0 < (DateTime.ending t.fraction).length := by cases t.fraction <;> simp [DateTime.ending]
    simp only [DateTime.text, List.length_append, List.length_cons, length_decimal]
    omega
  have hyear := DateTime.year_lt h
  obtain ⟨h0, h5, h8, h11, h14, h17⟩ := num_text hyear
  have hsecs : Int64.ofNat t.date.dayCount * 86400 + Int64.ofNat t.hour * 3600 +
    Int64.ofNat t.minute * 60 + Int64.ofNat t.second =
      Int64.ofNat t.seconds := by
    simp only [DateTime.seconds, Int64.ofNat_add, Int64.ofNat_mul]
    rfl
  have hns : UInt64.ofNat t.seconds * 1000000000 + UInt64.ofNat t.fractionNs =
      UInt64.ofNat t.nanoseconds := by
    rw [DateTime.nanoseconds, UInt64.ofNat_add, UInt64.ofNat_mul]
    rfl
  rw [parseRfc3339Ns, if_neg hlen]
  simp only [h0, h5, h8, h11, h14, h17, t.days_text hyear, hsecs, t.fraction_text]
  rw [Int64.toUInt64_ofNat', Int64.toUInt64_ofNat', hns]
  exact UInt64.toNat_ofNat_of_lt' h

/-- **Time stamps are exact**: the parser returns the nanoseconds from the epoch on, and what it
returns for two time stamps compares as their times do, in nanoseconds. -/
theorem timestamps_exact :
    (∀ t : DateTime, t.nanoseconds < 2 ^ 64 → (parseRfc3339Ns t.text).toNat = t.nanoseconds) ∧
      ∀ t u : DateTime, t.nanoseconds < 2 ^ 64 → u.nanoseconds < 2 ^ 64 →
        (parseRfc3339Ns t.text ≤ parseRfc3339Ns u.text ↔
          ⌊t.instant * 10 ^ 9⌋ ≤ ⌊u.instant * 10 ^ 9⌋) := by
  refine ⟨fun t h => parse_text h, fun t u ht hu => ?_⟩
  rw [UInt64.le_iff_toNat_le, parse_text ht, parse_text hu, t.floor_instant, u.floor_instant,
    Nat.cast_le]

/-- A moment of a trade, with nanoseconds. -/
def tradeMoment : DateTime where
  date := ⟨2023, 4, 6, by decide, by decide⟩
  hour := 11
  minute := 54
  second := 26
  fraction := some [8, 3, 8, 2, 3, 2, 2, 2, 5]
  from_epoch := by decide
  hour_lt := by decide
  minute_lt := by decide
  second_lt := by decide

/-- What is returned for it. -/
theorem timestamps_exact_trade :
    tradeMoment.text = ascii "2023-04-06T11:54:26.838232225Z" ∧
      (parseRfc3339Ns tradeMoment.text).toNat = 1680782066838232225 ∧
      (parseRfc3339Ns tradeMoment.text ≤ parseRfc3339Ns tradeMoment.text ↔
        ⌊tradeMoment.instant * 10 ^ 9⌋ ≤ ⌊tradeMoment.instant * 10 ^ 9⌋) := by
  have hns : tradeMoment.nanoseconds = 1680782066838232225 := by decide
  have hlt : tradeMoment.nanoseconds < 2 ^ 64 := by rw [hns]; decide
  exact ⟨by decide, (timestamps_exact.1 _ hlt).trans hns, timestamps_exact.2 _ _ hlt hlt⟩

end TradeFeed.Feed
