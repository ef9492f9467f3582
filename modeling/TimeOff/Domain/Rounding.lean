import TimeOff.Domain.Accrual
import TimeOff.Lib.Sql

/-!
# What decimal arithmetic does to an amount

The 28 digits of the context are more than amounts of a ledger need: no quotient
is rounded across an integer (`amounts_eq_floorDivision`). What an amount does
lose is the fraction of a minute in its rate, which is floored before it is
multiplied (`payrollAmount_exact_iff`).

An amount is a product, a quotient and a floor, and the context rounds the
product and the quotient. A product of integers below `10 ^ 28` is exact. A
quotient is rounded in its 28th digit, which reaches the next integer only if
the quotient was that close below one; its distance from the integer is at least
one part in the divisor, so quotients of products up to `10 ^ 27` are floored as
if they were exact (`floor_mul_div`). For larger ones `WithinContext` compares
the two distances themselves.
-/

namespace TimeOff

open Gregorian

/-- The minutes of one unit of a rate. -/
def unitMinutes (unit : RateUnit) (dayMinutes : Int) : Int :=
  match unit with
  | .DAY => dayMinutes
  | .HOUR => 60
  | .MINUTE => 1

theorem toMinutes_def (amount : ℚ) (unit : RateUnit) (dayMinutes : Int) :
    toMinutes amount unit dayMinutes = ⌊Decimal.mul amount (unitMinutes unit dayMinutes)⌋ := by
  cases unit <;> rfl

/-- A rate with four decimals is multiplied without rounding. -/
theorem toMinutes_eq_floor {n dayMinutes : Int} {unit : RateUnit}
    (h : |n * unitMinutes unit dayMinutes| < 10 ^ 28) :
    toMinutes ((n : ℚ) / 10 ^ 4) unit dayMinutes
      = ⌊(n : ℚ) / 10 ^ 4 * unitMinutes unit dayMinutes⌋ := by
  have hproduct : (n : ℚ) / 10 ^ 4 * unitMinutes unit dayMinutes
      = ((n * unitMinutes unit dayMinutes : Int) : ℚ) / 10 ^ 4 := by
    rw [Int.cast_mul]
    ring
  rw [toMinutes_def, Decimal.mul, hproduct, Decimal.round_scaled h]

theorem toMinutes_eq_fdiv {n dayMinutes : Int} {unit : RateUnit}
    (h : |n * unitMinutes unit dayMinutes| < 10 ^ 28) :
    toMinutes ((n : ℚ) / 10 ^ 4) unit dayMinutes
      = (n * unitMinutes unit dayMinutes).fdiv (10 ^ 4) := by
  rw [toMinutes_eq_floor h, ← Decimal.floor_div_eq_fdiv _ (by norm_num)]
  congr 1
  push_cast
  ring

/-- Products and quotients of integers within 27 digits lose nothing to the
rounding of the context. -/
theorem floor_mul_div {a b d : Int} (hd : d ≠ 0) (h : |a * b| ≤ 10 ^ 27) :
    ⌊Decimal.div (Decimal.mul a b) d⌋ = (a * b).fdiv d := by
  have hproduct : Decimal.mul (a : ℚ) b = ((a * b : Int) : ℚ) := by
    rw [Decimal.mul, ← Int.cast_mul, Decimal.round_intCast (lt_of_le_of_lt h (by norm_num))]
  rw [hproduct, Decimal.floor_div hd h]

theorem payrollAmount_eq_fdiv {minutesWorked per dayMinutes : Int} {amount : ℚ} {unit : RateUnit}
    (hper : per ≠ 0) (h : |minutesWorked * toMinutes amount unit dayMinutes| ≤ 10 ^ 27) :
    payrollAmount minutesWorked amount unit (some per) dayMinutes
      = .ok ((minutesWorked * toMinutes amount unit dayMinutes).fdiv per) := by
  simp only [payrollAmount]
  rw [if_neg hper, floor_mul_div hper h]

/-- A quotient of 32 bits by 32 bits had 62 bits before the division. -/
theorem abs_le_of_fdiv {p d : Int} (hd : d ≠ 0) (hfits : Sql.InInteger d)
    (h : Sql.InInteger (p.fdiv d)) : |p| ≤ 10 ^ 27 := by
  unfold Sql.InInteger at hfits h
  rw [← Decimal.floor_div_eq_fdiv p hd] at h
  have hdq : (0 : ℚ) < |(d : ℚ)| := abs_pos.mpr (by exact_mod_cast hd)
  have hquot : |(p : ℚ) / d| ≤ 2 ^ 31 := by
    have hlow : (-2 ^ 31 : ℚ) ≤ ⌊(p : ℚ) / d⌋ := by exact_mod_cast h.1
    have hhigh : (⌊(p : ℚ) / d⌋ : ℚ) + 1 ≤ 2 ^ 31 := by exact_mod_cast h.2
    rw [abs_le]
    constructor
    · linarith [Int.floor_le ((p : ℚ) / d)]
    · linarith [Int.lt_floor_add_one ((p : ℚ) / d)]
  have hdivisor : |(d : ℚ)| ≤ 2 ^ 31 := by
    exact_mod_cast abs_le.mpr ⟨hfits.1, by omega⟩
  have hp : |(p : ℚ)| ≤ 10 ^ 27 := by
    calc |(p : ℚ)| = |(p : ℚ) / d| * |(d : ℚ)| := by
          rw [abs_div, div_mul_cancel₀ _ (ne_of_gt hdq)]
      _ ≤ 2 ^ 31 * 2 ^ 31 := by gcongr
      _ ≤ 10 ^ 27 := by norm_num
  exact_mod_cast hp

theorem scheduledAmount_eq_fdiv {amount : ℚ} {unit : RateUnit} {period : Period}
    {eligibleFrom : Date} {dayMinutes : Int} (hlate : period.start < eligibleFrom)
    (htotal : period.finish.daysSince period.start + 1 ≠ 0)
    (h : |toMinutes amount unit dayMinutes * (period.finish.daysSince eligibleFrom + 1)|
      ≤ 10 ^ 27) :
    scheduledAmount amount unit period eligibleFrom .PRORATE dayMinutes
      = (toMinutes amount unit dayMinutes * (period.finish.daysSince eligibleFrom + 1)).fdiv
          (period.finish.daysSince period.start + 1) := by
  simp only [scheduledAmount]
  rw [if_neg (by simp [not_le.mpr hlate]), if_neg (by decide)]
  rw [← floor_mul_div htotal h]

/-- Amounts are the floors of their exact products and quotients: what the
decimal context rounds off never reaches the next minute. -/
theorem amounts_eq_floorDivision :
    (∀ (n : Int) (unit : RateUnit) (dayMinutes : Int),
      Sql.InInteger ((n * unitMinutes unit dayMinutes).fdiv (10 ^ 4)) →
        toMinutes ((n : ℚ) / 10 ^ 4) unit dayMinutes
          = (n * unitMinutes unit dayMinutes).fdiv (10 ^ 4)) ∧
    (∀ (amount : ℚ) (unit : RateUnit) (period : Period) (eligibleFrom : Date) (dayMinutes : Int),
      let full := toMinutes amount unit dayMinutes
      let covered := period.finish.daysSince eligibleFrom + 1
      let total := period.finish.daysSince period.start + 1
      period.start < eligibleFrom → total ≠ 0 → Sql.InInteger total →
        Sql.InInteger ((full * covered).fdiv total) →
          scheduledAmount amount unit period eligibleFrom .PRORATE dayMinutes
            = (full * covered).fdiv total) ∧
    ∀ (minutesWorked : Int) (amount : ℚ) (unit : RateUnit) (per dayMinutes : Int),
      let rate := toMinutes amount unit dayMinutes
      per ≠ 0 → Sql.InInteger per → Sql.InInteger ((minutesWorked * rate).fdiv per) →
        payrollAmount minutesWorked amount unit (some per) dayMinutes
          = .ok ((minutesWorked * rate).fdiv per) := by
  refine ⟨?_, ?_, ?_⟩
  · intro n unit dayMinutes h
    have hsize := abs_le_of_fdiv (by norm_num) (by decide) h
    exact toMinutes_eq_fdiv (lt_of_le_of_lt hsize (by norm_num))
  · intro amount unit period eligibleFrom dayMinutes full covered total hlate htotal hfits h
    exact scheduledAmount_eq_fdiv hlate htotal (abs_le_of_fdiv htotal hfits h)
  · intro minutesWorked amount unit per dayMinutes rate hper hfits h
    exact payrollAmount_eq_fdiv hper (abs_le_of_fdiv hper hfits h)

/-- At 0.25 days of eight hours for 160 hours of work, 35 hours earn 26 minutes. -/
theorem amounts_eq_floorDivision_of_week :
    Sql.InInteger ((2100 * toMinutes (1 / 4) .DAY 480).fdiv 9600) ∧
      payrollAmount 2100 (1 / 4) .DAY (some 9600) 480
        = .ok ((2100 * toMinutes (1 / 4) .DAY 480).fdiv 9600) :=
  ⟨by decide +kernel, amounts_eq_floorDivision.2.2 2100 (1 / 4) .DAY 9600 480 (by decide)
    (by decide) (by decide +kernel)⟩

/-! ## The fraction of a minute in a rate

The code floors the rate to whole minutes and then the product. Flooring once
gives the same if the fraction that was dropped, times the minutes worked, does
not reach the next minute: a question about the remainder of one division. -/

/-- The minutes earned at a rate, floored only once. -/
def exactPayroll (minutesWorked : Int) (amount : ℚ) (unit : RateUnit) (perMinutesWorked : Int)
    (dayMinutes : Int) : Int :=
  ⌊minutesWorked * (amount * unitMinutes unit dayMinutes) / perMinutesWorked⌋

/-- The minutes worked times the whole minutes of the rate, where `n` is the amount
in ten-thousandths. -/
def wholeProduct (minutesWorked n : Int) (unit : RateUnit) (dayMinutes : Int) : Int :=
  minutesWorked * ⌊(n : ℚ) / 10 ^ 4 * unitMinutes unit dayMinutes⌋

/-- No product has more than the 28 digits of the context, and the quotient is not
so close to the next minute that its last digit is rounded up to it. -/
structure WithinContext (minutesWorked n : Int) (unit : RateUnit)
    (perMinutesWorked dayMinutes : Int) : Prop where
  rate : |n * unitMinutes unit dayMinutes| < 10 ^ 28
  worked : |wholeProduct minutesWorked n unit dayMinutes| < 10 ^ 28
  earned : Decimal.lastPlace (wholeProduct minutesWorked n unit dayMinutes / perMinutesWorked)
      * perMinutesWorked
    < 2 * (perMinutesWorked
        - wholeProduct minutesWorked n unit dayMinutes % perMinutesWorked : Int)

/-- Products of 27 digits are small enough. -/
theorem withinContext_of_le {minutesWorked n perMinutesWorked dayMinutes : Int} {unit : RateUnit}
    (hper : 0 < perMinutesWorked) (hrate : |n * unitMinutes unit dayMinutes| < 10 ^ 28)
    (hworked : |wholeProduct minutesWorked n unit dayMinutes| ≤ 10 ^ 27) :
    WithinContext minutesWorked n unit perMinutesWorked dayMinutes :=
  ⟨hrate, lt_of_le_of_lt hworked (by norm_num), Decimal.room_of_le hper hworked⟩

/-- And so may products of 28 digits be. -/
example : WithinContext (9 * 10 ^ 27) 10000 .MINUTE 1 480 :=
  ⟨by decide +kernel, by decide +kernel, by decide +kernel⟩

/-- The fractions of a minute lost with the rate do not reach the next minute
earned: together they are less than what the whole minutes of the rate leave
open. -/
def LosesNothing (minutesWorked : Int) (amount : ℚ) (unit : RateUnit) (perMinutesWorked : Int)
    (dayMinutes : Int) : Prop :=
  let rate := amount * unitMinutes unit dayMinutes
  minutesWorked * Int.fract rate
    < (perMinutesWorked - minutesWorked * ⌊rate⌋ % perMinutesWorked : Int)

/-- Adding to a numerator leaves the floor alone as long as the rest has room. -/
theorem floor_add_div_eq_iff {p d : Int} {x : ℚ} (hd : 0 < d) (hx : 0 ≤ x) :
    ⌊((p : ℚ) + x) / d⌋ = p / d ↔ x < (d - p % d : Int) := by
  have hdq : (0 : ℚ) < d := by exact_mod_cast hd
  have hsplit : (p : ℚ) = d * (p / d : Int) + (p % d : Int) := by
    exact_mod_cast (Int.mul_ediv_add_emod p d).symm
  have hrest : (0 : ℚ) ≤ (p % d : Int) := by exact_mod_cast Int.emod_nonneg p (ne_of_gt hd)
  rw [Int.floor_eq_iff, le_div_iff₀ hdq, div_lt_iff₀ hdq, Int.cast_sub]
  constructor
  · rintro ⟨-, hlt⟩
    linarith
  · intro hlt
    constructor
    · linarith
    · linarith

/-- Within the context only the rate is floored early. -/
theorem WithinContext.payrollAmount_eq {minutesWorked n perMinutesWorked dayMinutes : Int}
    {unit : RateUnit} (h : WithinContext minutesWorked n unit perMinutesWorked dayMinutes)
    (hper : 0 < perMinutesWorked) :
    payrollAmount minutesWorked ((n : ℚ) / 10 ^ 4) unit (some perMinutesWorked) dayMinutes
      = .ok (wholeProduct minutesWorked n unit dayMinutes / perMinutesWorked) := by
  have hproduct : Decimal.mul (minutesWorked : ℚ)
      (⌊(n : ℚ) / 10 ^ 4 * unitMinutes unit dayMinutes⌋ : Int)
        = (wholeProduct minutesWorked n unit dayMinutes : Int) := by
    rw [Decimal.mul, ← Int.cast_mul]
    exact Decimal.round_intCast h.worked
  simp only [payrollAmount]
  rw [if_neg (ne_of_gt hper), toMinutes_eq_floor h.rate, hproduct,
    Decimal.floor_div_of_room hper h.worked h.earned]

theorem payrollAmount_eq_exact_iff_of_within {minutesWorked n perMinutesWorked dayMinutes : Int}
    {unit : RateUnit} (hworked : 0 ≤ minutesWorked) (hper : 0 < perMinutesWorked)
    (h : WithinContext minutesWorked n unit perMinutesWorked dayMinutes) :
    payrollAmount minutesWorked ((n : ℚ) / 10 ^ 4) unit (some perMinutesWorked) dayMinutes
        = .ok (exactPayroll minutesWorked ((n : ℚ) / 10 ^ 4) unit perMinutesWorked dayMinutes) ↔
      LosesNothing minutesWorked ((n : ℚ) / 10 ^ 4) unit perMinutesWorked dayMinutes := by
  rw [h.payrollAmount_eq hper]
  unfold exactPayroll LosesNothing wholeProduct
  generalize (n : ℚ) / 10 ^ 4 * unitMinutes unit dayMinutes = rate
  have hwhole : (minutesWorked : ℚ) * rate
      = (minutesWorked * ⌊rate⌋ : Int) + minutesWorked * Int.fract rate := by
    rw [Int.cast_mul, ← mul_add, Int.floor_add_fract]
  have hlost : (0 : ℚ) ≤ minutesWorked * Int.fract rate :=
    mul_nonneg (by exact_mod_cast hworked) (Int.fract_nonneg rate)
  rw [hwhole, Except.ok.injEq, eq_comm]
  exact floor_add_div_eq_iff hper hlost

/-- Floored once or twice, the minutes are the same if no product outgrows the
context, no quotient is rounded up to a minute and the fractions lost reach none;
within the context they are the same only then. -/
theorem payrollAmount_exact_iff :
    ∀ (minutesWorked n : Int) (unit : RateUnit) (perMinutesWorked dayMinutes : Int),
      0 ≤ minutesWorked → 0 < n → 0 < perMinutesWorked →
        let amount := (n : ℚ) / 10 ^ 4
        let exact := payrollAmount minutesWorked amount unit (some perMinutesWorked) dayMinutes
          = .ok (exactPayroll minutesWorked amount unit perMinutesWorked dayMinutes)
        (WithinContext minutesWorked n unit perMinutesWorked dayMinutes ∧
            LosesNothing minutesWorked amount unit perMinutesWorked dayMinutes → exact) ∧
          (WithinContext minutesWorked n unit perMinutesWorked dayMinutes → exact →
            LosesNothing minutesWorked amount unit perMinutesWorked dayMinutes) := by
  intro minutesWorked n unit perMinutesWorked dayMinutes hworked _ hper amount exact
  constructor
  · rintro ⟨hwithin, hlost⟩
    exact (payrollAmount_eq_exact_iff_of_within hworked hper hwithin).mpr hlost
  · intro hwithin hexact
    exact (payrollAmount_eq_exact_iff_of_within hworked hper hwithin).mp hexact

/-- At 1.5 hours for 30 hours of work, 40 hours earn 120 minutes. -/
theorem payrollAmount_exact_iff_of_week :
    payrollAmount 2400 ((15000 : Int) / 10 ^ 4) .HOUR (some 1800) 480
      = .ok (exactPayroll 2400 ((15000 : Int) / 10 ^ 4) .HOUR 1800 480) := by
  refine (payrollAmount_exact_iff 2400 15000 .HOUR 1800 480 (by decide) (by decide)
    (by decide)).1 ⟨withinContext_of_le (by decide) (by decide +kernel) (by decide +kernel), ?_⟩
  unfold LosesNothing
  decide +kernel

/-- Beyond the context a whole rate is not enough. -/
example : payrollAmount (10 ^ 28 + 1) 1 .MINUTE (some 1) 480 = .ok (10 ^ 28) := by decide +kernel

/-- At 0.0385 hours an hour, 80 hours of work earn 184.8 minutes; the rate is
floored from 2.31 to 2 minutes an hour, and 160 minutes are credited. -/
theorem payrollAmount_loses_fraction :
    ¬ ∀ (minutesWorked n : Int) (unit : RateUnit) (perMinutesWorked dayMinutes : Int),
      0 ≤ minutesWorked → 0 < n → 0 < perMinutesWorked →
        payrollAmount minutesWorked ((n : ℚ) / 10 ^ 4) unit (some perMinutesWorked) dayMinutes
          = .ok (exactPayroll minutesWorked ((n : ℚ) / 10 ^ 4) unit perMinutesWorked
              dayMinutes) := by
  intro h
  have hcode := h 4800 385 .HOUR 60 480 (by decide) (by decide) (by decide)
  revert hcode
  decide +kernel

end TimeOff
