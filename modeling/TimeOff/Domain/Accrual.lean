import TimeOff.Domain.Periods
import TimeOff.Lib.Decimal

/-!
# Accrual calculations

Rates are decimals, the ledger counts whole minutes: every conversion rounds
down once, after decimal arithmetic in the default context. A rate is a rational
number here, which is what a decimal denotes, and the operations of the context
are those of `Lib.Decimal`: products and quotients of 28 digits, rounded half to
even.

The amounts are not negative for rates that are not (`scheduledAmount_nonneg`,
`payrollAmount_nonneg`), and a part of a period is never worth more than all of
it (`scheduledAmount_le`). When the rounding of the context shows is the subject
of `Domain.Rounding`.
-/

namespace TimeOff

open Gregorian

/-- A rate in whole minutes. -/
def toMinutes (amount : ℚ) (unit : RateUnit) (dayMinutes : Int) : Int :=
  let multiplier : Int :=
    match unit with
    | .DAY => dayMinutes
    | .HOUR => 60
    | .MINUTE => 1
  ⌊Decimal.mul amount multiplier⌋

/-- `scheduled_amount`: the minutes of a period, or of the part of it from
`eligible_from` on. -/
def scheduledAmount (amount : ℚ) (unit : RateUnit) (period : Period) (eligibleFrom : Date)
    (proration : NewHireProration) (dayMinutes : Int) : Int :=
  let full := toMinutes amount unit dayMinutes
  if eligibleFrom ≤ period.start ∨ proration = .FULL then full
  else if proration = .NONE then 0
  else
    let covered := period.finish.daysSince eligibleFrom + 1
    let total := period.finish.daysSince period.start + 1
    ⌊Decimal.div (Decimal.mul full covered) total⌋

/-- `payroll_amount`: the rate per `per_minutes_worked`, in whole minutes before
it is multiplied. -/
def payrollAmount (minutesWorked : Int) (amount : ℚ) (unit : RateUnit)
    (perMinutesWorked : Option Int) (dayMinutes : Int) : Except Error Int :=
  match perMinutesWorked with
  | none => .error .type
  | some per =>
    if per = 0 then .error .arithmetic
    else
      let earned := Decimal.div (Decimal.mul minutesWorked (toMinutes amount unit dayMinutes)) per
      .ok ⌊earned⌋

/-- Whole months completed; month-end hires clamp to each month's last day. -/
def completedTenureMonths (start onDate : Date) : Int :=
  let months := (onDate.year - start.year) * 12 + onDate.month - start.month
  let anniversaryDay := min start.day (daysInMonth onDate.year onDate.month)
  max (if onDate.day < anniversaryDay then months - 1 else months) 0

/-- Rates that are not negative come to minutes that are not. -/
theorem toMinutes_nonneg {amount : ℚ} {unit : RateUnit} {dayMinutes : Int} (ha : 0 ≤ amount)
    (hd : 0 ≤ dayMinutes) : 0 ≤ toMinutes amount unit dayMinutes := by
  refine Int.floor_nonneg.mpr (Decimal.nonneg_mul ha ?_)
  cases unit with
  | DAY => exact_mod_cast hd
  | HOUR => norm_num
  | MINUTE => norm_num

/-- A period that is not over before eligibility starts is never charged for. -/
theorem scheduledAmount_nonneg {amount : ℚ} {unit : RateUnit} {period : Period}
    {eligibleFrom : Date} {proration : NewHireProration} {dayMinutes : Int} (ha : 0 ≤ amount)
    (hd : 0 ≤ dayMinutes) (hp : period.start ≤ period.finish)
    (he : eligibleFrom ≤ period.finish) :
    0 ≤ scheduledAmount amount unit period eligibleFrom proration dayMinutes := by
  have hfull : 0 ≤ toMinutes amount unit dayMinutes := toMinutes_nonneg ha hd
  simp only [scheduledAmount]
  split_ifs
  · exact hfull
  · exact le_refl 0
  · have hcovered : 0 ≤ period.finish.daysSince eligibleFrom + 1 := by
      have := Date.le_iff.mp he
      simp only [Date.daysSince]
      omega
    have htotal : 0 ≤ period.finish.daysSince period.start + 1 := by
      have := Date.le_iff.mp hp
      simp only [Date.daysSince]
      omega
    exact Int.floor_nonneg.mpr (Decimal.nonneg_div
      (Decimal.nonneg_mul (by exact_mod_cast hfull) (by exact_mod_cast hcovered))
      (by exact_mod_cast htotal))

/-- Part of a period is never worth more than all of it: no period is so long
that rounding makes up for a missing day. -/
theorem scheduledAmount_le {amount : ℚ} {unit : RateUnit} {period : Period} {eligibleFrom : Date}
    {proration : NewHireProration} {dayMinutes : Int} (ha : 0 ≤ amount) (hd : 0 ≤ dayMinutes)
    (hp : period.finish.daysSince period.start ≤ 365) (he : eligibleFrom ≤ period.finish) :
    scheduledAmount amount unit period eligibleFrom proration dayMinutes
      ≤ toMinutes amount unit dayMinutes := by
  have hfull : 0 ≤ toMinutes amount unit dayMinutes := toMinutes_nonneg ha hd
  simp only [scheduledAmount]
  split_ifs with hstart hnone
  · exact le_refl _
  · exact hfull
  · generalize toMinutes amount unit dayMinutes = full at hfull
    have hlate : period.start < eligibleFrom := not_le.mp fun h => hstart (Or.inl h)
    have hcovered : 0 ≤ period.finish.daysSince eligibleFrom + 1 := by
      have := Date.le_iff.mp he
      simp only [Date.daysSince]
      omega
    have htotal : 0 < period.finish.daysSince period.start + 1 := by
      have := Date.lt_iff.mp hlate
      have := Date.le_iff.mp he
      simp only [Date.daysSince]
      omega
    -- at least a day of at most 366 is missing
    have hpart : 366 * (period.finish.daysSince eligibleFrom + 1)
        ≤ 365 * (period.finish.daysSince period.start + 1) := by
      have := Date.lt_iff.mp hlate
      simp only [Date.daysSince] at hp ⊢
      omega
    generalize period.finish.daysSince eligibleFrom + 1 = covered at hcovered hpart
    generalize period.finish.daysSince period.start + 1 = total at htotal hpart
    have hf : (0 : ℚ) ≤ full := by exact_mod_cast hfull
    have hc : (0 : ℚ) ≤ covered := by exact_mod_cast hcovered
    have ht : (0 : ℚ) < total := by exact_mod_cast htotal
    have hct : (covered : ℚ) / total ≤ 365 / 366 := by
      rw [div_le_div_iff₀ ht (by norm_num)]
      exact_mod_cast (by omega : covered * 366 ≤ 365 * total)
    have hmul := Decimal.round_le (mul_nonneg hf hc)
    have hdiv := Decimal.round_le (div_nonneg (Decimal.nonneg_mul hf hc) (le_of_lt ht))
    have hle : Decimal.div (Decimal.mul full covered) total ≤ full := by
      calc Decimal.div (Decimal.mul full covered) total
          ≤ Decimal.mul full covered / total * (1 + 1 / 10 ^ 27) := hdiv
        _ ≤ full * covered * (1 + 1 / 10 ^ 27) / total * (1 + 1 / 10 ^ 27) := by
            gcongr
            exact hmul
        _ = full * (covered / total * (1 + 1 / 10 ^ 27) ^ 2) := by
            ring
        _ ≤ full * (365 / 366 * (1 + 1 / 10 ^ 27) ^ 2) := by
            gcongr
        _ ≤ full := mul_le_of_le_one_right hf (by norm_num)
    exact_mod_cast le_trans (Int.floor_le _) hle

/-- Nothing is taken for work. -/
theorem payrollAmount_nonneg {minutesWorked : Int} {amount : ℚ} {unit : RateUnit} {per : Int}
    {dayMinutes n : Int} (hm : 0 ≤ minutesWorked) (ha : 0 ≤ amount) (hper : 0 ≤ per)
    (hd : 0 ≤ dayMinutes)
    (h : payrollAmount minutesWorked amount unit (some per) dayMinutes = .ok n) : 0 ≤ n := by
  simp only [payrollAmount] at h
  split at h
  · cases h
  · cases h
    exact Int.floor_nonneg.mpr (Decimal.nonneg_div
      (Decimal.nonneg_mul (by exact_mod_cast hm) (by exact_mod_cast toMinutes_nonneg ha hd))
      (by exact_mod_cast hper))

end TimeOff
