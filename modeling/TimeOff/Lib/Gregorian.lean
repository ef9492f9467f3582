import Mathlib.Order.Lattice
import Mathlib.Tactic.Common

/-!
# The proleptic Gregorian calendar

Days are integers (`Date.ordinal`; day 1 is January 1 of year 1), so moving by
days and comparing days is integer arithmetic. Years, months and days of the
month are computed from the ordinal by exact division, and
`ymd_spec`/`year_month_unique` characterize them by the interval of ordinals
they name. Every later fact about months and years goes through these two.

There is no first or last year: a library whose dates end at some year raises
where this one goes on.
-/

namespace Gregorian

/-- A calendar day, by its ordinal. -/
structure Date where
  ordinal : Int
deriving DecidableEq, Repr

namespace Date

/-- Days are integers, with their order. -/
theorem ordinal_injective : Function.Injective ordinal := fun ⟨_⟩ ⟨_⟩ h => congrArg mk h

instance : LinearOrder Date := LinearOrder.lift' ordinal ordinal_injective

theorem le_iff {a b : Date} : a ≤ b ↔ a.ordinal ≤ b.ordinal := Iff.rfl

theorem lt_iff {a b : Date} : a < b ↔ a.ordinal < b.ordinal := Iff.rfl

/-- Days are equal when their ordinals are. -/
theorem ext_iff' {a b : Date} : a = b ↔ a.ordinal = b.ordinal :=
  ⟨congrArg ordinal, fun h => ordinal_injective h⟩

/-- The day `n` days after `d` (before it, for negative `n`). -/
def addDays (d : Date) (n : Int) : Date := ⟨d.ordinal + n⟩

/-- The number of days from `e` to `d`. -/
def daysSince (d e : Date) : Int := d.ordinal - e.ordinal

@[simp] theorem ordinal_addDays (d : Date) (n : Int) : (d.addDays n).ordinal = d.ordinal + n := rfl

/-- The ISO weekday: Monday is 1, Sunday is 7. -/
def isoWeekday (d : Date) : Int := (d.ordinal - 1) % 7 + 1

end Date

/-! ## Years

Days before a year, and the year of a day, by divisions that are shown to be
inverse. -/

/-- Leap years. -/
def isLeap (y : Int) : Bool := decide (y % 4 = 0 ∧ (y % 100 ≠ 0 ∨ y % 400 = 0))

/-- Days before January 1 of year `y`, counted from the start of year 1. -/
def daysBeforeYear (y : Int) : Int :=
  (y - 1) * 365 + (y - 1) / 4 - (y - 1) / 100 + (y - 1) / 400

/-- The length of a year. -/
def daysInYear (y : Int) : Int := if isLeap y then 366 else 365

/-- A year begins when the one before it is over. -/
theorem daysBeforeYear_succ (y : Int) :
    daysBeforeYear (y + 1) = daysBeforeYear y + daysInYear y := by
  unfold daysBeforeYear daysInYear isLeap
  simp only [decide_eq_true_eq]
  split <;> omega

theorem daysBeforeYear_mono {a b : Int} (h : a ≤ b) : daysBeforeYear a ≤ daysBeforeYear b := by
  unfold daysBeforeYear
  omega

/-- `daysBeforeYear` in the mixed radix of the 400, 100, 4 and 1 year cycles. -/
theorem daysBeforeYear_split {a b c e : Int} (hb : 0 ≤ b ∧ b ≤ 3) (hc : 0 ≤ c ∧ c ≤ 24)
    (he : 0 ≤ e ∧ e ≤ 3) :
    daysBeforeYear (a * 400 + b * 100 + c * 4 + e + 1)
      = a * 146097 + b * 36524 + c * 1461 + e * 365 := by
  have h4 : (a * 400 + b * 100 + c * 4 + e) / 4 = a * 100 + b * 25 + c := by omega
  have h100 : (a * 400 + b * 100 + c * 4 + e) / 100 = a * 4 + b := by omega
  have h400 : (a * 400 + b * 100 + c * 4 + e) / 400 = a := by omega
  unfold daysBeforeYear
  rw [Int.add_sub_cancel, h4, h100, h400]
  omega

/-- The year of the day with ordinal `n`: divide by the 400, 100, 4 and 1 year
cycles in turn. The last 100-year and 1-year cycles are a day longer, hence the
two `min`s. -/
def yearOf (n : Int) : Int :=
  let n400 := (n - 1) / 146097
  let r400 := (n - 1) % 146097
  let n100 := min (r400 / 36524) 3
  let r100 := r400 - n100 * 36524
  let n4 := r100 / 1461
  let r4 := r100 % 1461
  let n1 := min (r4 / 365) 3
  n400 * 400 + n100 * 100 + n4 * 4 + n1 + 1

/-- The year computed by division is the year the day lies in. -/
theorem yearOf_bounds (n : Int) :
    daysBeforeYear (yearOf n) < n ∧ n ≤ daysBeforeYear (yearOf n + 1) := by
  unfold yearOf
  dsimp only
  generalize ha : (n - 1) / 146097 = a
  generalize hr : (n - 1) % 146097 = r
  have hn : n = a * 146097 + r + 1 := by omega
  have hr0 : 0 ≤ r ∧ r < 146097 := by omega
  clear ha hr
  generalize hb : min (r / 36524) 3 = b
  have hb' : 0 ≤ b ∧ b ≤ 3 := by omega
  generalize hs : r - b * 36524 = s
  have hs' : 0 ≤ s ∧ s ≤ 36524 ∧ (b < 3 → s < 36524) := by omega
  clear hb hr0
  generalize hc : s / 1461 = c
  generalize hu : s % 1461 = u
  have hc' : 0 ≤ c ∧ c ≤ 24 := by omega
  have hu' : 0 ≤ u ∧ u ≤ 1460 ∧ s = c * 1461 + u := by omega
  clear hc hu
  generalize he : min (u / 365) 3 = e
  have he' : 0 ≤ e ∧ e ≤ 3 := by omega
  have hv : 0 ≤ u - e * 365 ∧ u - e * 365 ≤ 365 ∧ (e < 3 → u - e * 365 < 365) := by omega
  clear he
  rw [daysBeforeYear_succ (_ + 1), daysBeforeYear_split hb' hc' he']
  refine ⟨by omega, ?_⟩
  -- the 366th day of the year only exists in a leap year
  have hlen : u - e * 365 < daysInYear (a * 400 + b * 100 + c * 4 + e + 1) := by
    unfold daysInYear isLeap
    simp only [decide_eq_true_eq]
    split <;> omega
  omega

/-- A year is determined by the interval of days it covers. -/
theorem yearOf_unique {n y : Int} (h₁ : daysBeforeYear y < n) (h₂ : n ≤ daysBeforeYear (y + 1)) :
    yearOf n = y := by
  obtain ⟨b₁, b₂⟩ := yearOf_bounds n
  by_contra hne
  rcases lt_or_gt_of_ne hne with hlt | hgt
  · have := daysBeforeYear_mono (a := yearOf n + 1) (b := y) (by omega)
    omega
  · have := daysBeforeYear_mono (a := y + 1) (b := yearOf n) (by omega)
    omega

/-! ## Months -/

/-- Days of the year before the first of month `m` (1 to 13), in closed form:
after February the 30.6-day rhythm of month lengths is one or two days off. -/
def daysBeforeMonth (leap : Bool) (m : Int) : Int :=
  (367 * m - 362) / 12 - (if m ≤ 2 then 0 else if leap then 1 else 2)

/-- The month (1 to 12) of the `k`-th day of the year. -/
def monthOf (leap : Bool) (k : Int) : Int :=
  let correction := if k ≤ (if leap then 60 else 59) then 0 else if leap then 1 else 2
  (12 * (k - 1 + correction) + 373) / 367

/-- The month computed by division is the month the day lies in. -/
theorem monthOf_bounds {leap : Bool} {k : Int} (h₁ : 1 ≤ k) (h₂ : k ≤ if leap then 366 else 365) :
    1 ≤ monthOf leap k ∧ monthOf leap k ≤ 12 ∧
      daysBeforeMonth leap (monthOf leap k) < k ∧
      k ≤ daysBeforeMonth leap (monthOf leap k + 1) := by
  unfold daysBeforeMonth monthOf
  cases leap <;> simp only [Bool.false_eq_true, if_true, if_false] at h₂ ⊢ <;>
    refine ⟨?_, ?_, ?_, ?_⟩ <;> split_ifs <;> omega

theorem daysBeforeMonth_mono (leap : Bool) {a b : Int} (ha : 1 ≤ a) (h : a ≤ b) :
    daysBeforeMonth leap a ≤ daysBeforeMonth leap b := by
  unfold daysBeforeMonth
  split_ifs <;> omega

theorem daysBeforeMonth_one (leap : Bool) : daysBeforeMonth leap 1 = 0 := rfl

/-- After twelve months the year is over. -/
theorem daysBeforeMonth_thirteen (y : Int) : daysBeforeMonth (isLeap y) 13 = daysInYear y := by
  unfold daysInYear
  cases isLeap y <;> rfl

/-- Days in month `m` of year `y`. -/
def daysInMonth (y m : Int) : Int :=
  daysBeforeMonth (isLeap y) (m + 1) - daysBeforeMonth (isLeap y) m

/-- Months have 28 to 31 days. -/
theorem daysInMonth_bounds {y m : Int} (h₁ : 1 ≤ m) (h₂ : m ≤ 12) :
    28 ≤ daysInMonth y m ∧ daysInMonth y m ≤ 31 := by
  unfold daysInMonth daysBeforeMonth
  cases isLeap y <;> split_ifs <;> omega

/-! ## Dates -/

/-- The day with the given year, month and day of the month. -/
def ofYmd (y m k : Int) : Date := ⟨daysBeforeYear y + daysBeforeMonth (isLeap y) m + k⟩

@[simp] theorem ordinal_ofYmd (y m k : Int) :
    (ofYmd y m k).ordinal = daysBeforeYear y + daysBeforeMonth (isLeap y) m + k := rfl

namespace Date

/-- The year of a day. -/
def year (d : Date) : Int := yearOf d.ordinal

/-- Its month. -/
def month (d : Date) : Int := monthOf (isLeap d.year) (d.ordinal - daysBeforeYear d.year)

/-- The day of the month. -/
def day (d : Date) : Int :=
  d.ordinal - daysBeforeYear d.year - daysBeforeMonth (isLeap d.year) d.month

/-- The same month's day `k`. -/
def replaceDay (d : Date) (k : Int) : Date := ofYmd d.year d.month k

end Date

/-- A day lies in its month. -/
theorem month_bounds (d : Date) :
    1 ≤ d.month ∧ d.month ≤ 12 ∧
      daysBeforeMonth (isLeap d.year) d.month < d.ordinal - daysBeforeYear d.year ∧
      d.ordinal - daysBeforeYear d.year ≤ daysBeforeMonth (isLeap d.year) (d.month + 1) := by
  obtain ⟨h₁, h₂⟩ := yearOf_bounds d.ordinal
  rw [daysBeforeYear_succ] at h₂
  refine monthOf_bounds ?_ ?_
  · show 1 ≤ d.ordinal - daysBeforeYear (yearOf d.ordinal)
    omega
  · show d.ordinal - daysBeforeYear (yearOf d.ordinal) ≤ daysInYear (yearOf d.ordinal)
    omega

/-- Year, month and day of the month are in range and name the day. -/
theorem ymd_spec (d : Date) :
    1 ≤ d.month ∧ d.month ≤ 12 ∧ 1 ≤ d.day ∧ d.day ≤ daysInMonth d.year d.month ∧
      ofYmd d.year d.month d.day = d := by
  obtain ⟨h₁, h₂, h₃, h₄⟩ := month_bounds d
  refine ⟨h₁, h₂, ?_, ?_, ?_⟩
  · unfold Date.day; omega
  · unfold Date.day daysInMonth; omega
  · rw [Date.ext_iff', ordinal_ofYmd]; unfold Date.day; omega

/-- Year and month are determined by the interval of days they cover. -/
theorem year_month_unique {d : Date} {y m : Int} (hm₁ : 1 ≤ m) (hm₂ : m ≤ 12)
    (h₁ : daysBeforeYear y + daysBeforeMonth (isLeap y) m < d.ordinal)
    (h₂ : d.ordinal ≤ daysBeforeYear y + daysBeforeMonth (isLeap y) (m + 1)) :
    d.year = y ∧ d.month = m := by
  have h0 := daysBeforeMonth_mono (isLeap y) (a := 1) (b := m) (by omega) hm₁
  rw [daysBeforeMonth_one] at h0
  have h13 := daysBeforeMonth_mono (isLeap y) (a := m + 1) (b := 13) (by omega) (by omega)
  rw [daysBeforeMonth_thirteen] at h13
  have hy : d.year = y := yearOf_unique (by omega) (by rw [daysBeforeYear_succ]; omega)
  refine ⟨hy, ?_⟩
  obtain ⟨b₁, b₂, b₃, b₄⟩ := month_bounds d
  rw [hy] at b₃ b₄
  by_contra hne
  rcases lt_or_gt_of_ne hne with hlt | hgt
  · have := daysBeforeMonth_mono (isLeap y) (a := d.month + 1) (b := m) (by omega) (by omega)
    omega
  · have := daysBeforeMonth_mono (isLeap y) (a := m + 1) (b := d.month) (by omega) (by omega)
    omega

/-- Reading back a valid year, month and day of the month. -/
theorem ofYmd_ymd {y m k : Int} (hm₁ : 1 ≤ m) (hm₂ : m ≤ 12) (hk₁ : 1 ≤ k)
    (hk₂ : k ≤ daysInMonth y m) :
    (ofYmd y m k).year = y ∧ (ofYmd y m k).month = m ∧ (ofYmd y m k).day = k := by
  obtain ⟨hy, hm⟩ : (ofYmd y m k).year = y ∧ (ofYmd y m k).month = m := by
    refine year_month_unique hm₁ hm₂ ?_ ?_
    · rw [ordinal_ofYmd]; omega
    · rw [ordinal_ofYmd]; unfold daysInMonth at hk₂; omega
  refine ⟨hy, hm, ?_⟩
  unfold Date.day
  rw [hy, hm, ordinal_ofYmd]
  omega

/-- The first of the month after `y`-`m`, across the end of the year. -/
theorem ofYmd_nextMonth {y m : Int} (hm₁ : 1 ≤ m) (hm₂ : m ≤ 12) :
    ofYmd (y + if m = 12 then 1 else 0) (m % 12 + 1) 1
      = ofYmd y m (daysInMonth y m + 1) := by
  rw [Date.ext_iff', ordinal_ofYmd, ordinal_ofYmd]
  unfold daysInMonth
  by_cases h : m = 12
  · subst h
    have h13 := daysBeforeMonth_thirteen y
    have hs := daysBeforeYear_succ y
    have h1 := daysBeforeMonth_one (isLeap (y + 1))
    rw [if_pos rfl]
    show daysBeforeYear (y + 1) + daysBeforeMonth (isLeap (y + 1)) 1 + 1
      = daysBeforeYear y + daysBeforeMonth (isLeap y) 12
        + (daysBeforeMonth (isLeap y) 13 - daysBeforeMonth (isLeap y) 12 + 1)
    omega
  · have hmod : m % 12 = m := by omega
    rw [if_neg h, hmod, Int.add_zero]
    omega

/-! ## Adding months

Adding months keeps the day of the month, or takes the last one of a shorter
month; the result grows with the number of months. -/

namespace Date

/-- Calendar months, counted on across the ends of years. -/
def monthIndex (d : Date) : Int := d.year * 12 + (d.month - 1)

/-- The same day `n` months later, or the last day of that month where it is
too short. -/
def addMonths (d : Date) (n : Int) : Date :=
  let index := d.monthIndex + n
  let y := index / 12
  let m := index % 12 + 1
  ofYmd y m (min d.day (daysInMonth y m))

end Date

theorem lt_of_monthIndex_lt {a b : Date} (h : a.monthIndex < b.monthIndex) : a < b := by
  obtain ⟨ha₁, ha₂, _, ha₄⟩ := month_bounds a
  obtain ⟨hb₁, hb₂, hb₃, _⟩ := month_bounds b
  rw [Date.lt_iff]
  unfold Date.monthIndex at h
  rcases lt_or_ge a.year b.year with hyear | hyear
  · -- the end of one year and the start of a later one lie between
    have hafter := daysBeforeMonth_mono (isLeap a.year) (a := a.month + 1) (b := 13) (by omega)
      (by omega)
    rw [daysBeforeMonth_thirteen] at hafter
    have hbefore := daysBeforeMonth_mono (isLeap b.year) (a := 1) (b := b.month) (by omega) hb₁
    rw [daysBeforeMonth_one] at hbefore
    have hyears := daysBeforeYear_mono (a := a.year + 1) (b := b.year) (by omega)
    rw [daysBeforeYear_succ] at hyears
    omega
  · have hsame : b.year = a.year := by omega
    rw [hsame] at hb₃
    have hmonths := daysBeforeMonth_mono (isLeap a.year) (a := a.month + 1) (b := b.month)
      (by omega) (by omega)
    omega

/-- Later days are in later months, or in the same. -/
theorem monthIndex_mono {a b : Date} (h : a ≤ b) : a.monthIndex ≤ b.monthIndex := by
  by_contra hlt
  exact absurd (lt_of_monthIndex_lt (not_le.mp hlt)) (not_lt.mpr h)

/-- Within one month days are compared by their number. -/
theorem le_iff_day_le {a b : Date} (h : a.monthIndex = b.monthIndex) : a ≤ b ↔ a.day ≤ b.day := by
  obtain ⟨ha₁, ha₂, -, -⟩ := month_bounds a
  obtain ⟨hb₁, hb₂, -, -⟩ := month_bounds b
  unfold Date.monthIndex at h
  have hyear : a.year = b.year := by omega
  have hmonth : a.month = b.month := by omega
  rw [Date.le_iff]
  unfold Date.day
  rw [hyear, hmonth]
  omega

/-- Adding months moves the month, and clamps the day. -/
theorem addMonths_spec (d : Date) (n : Int) :
    (d.addMonths n).monthIndex = d.monthIndex + n ∧
      (d.addMonths n).day
        = min d.day (daysInMonth (d.addMonths n).year (d.addMonths n).month) := by
  obtain ⟨-, -, hday, -⟩ := ymd_spec d
  unfold Date.addMonths
  dsimp only
  generalize d.monthIndex + n = index
  have hlen := daysInMonth_bounds (y := index / 12) (m := index % 12 + 1) (by omega) (by omega)
  obtain ⟨hy, hm, hk⟩ := ofYmd_ymd (y := index / 12) (m := index % 12 + 1)
    (k := min d.day (daysInMonth (index / 12) (index % 12 + 1))) (by omega) (by omega) (by omega)
    (by omega)
  refine ⟨?_, ?_⟩
  · unfold Date.monthIndex
    rw [hy, hm]
    omega
  · rw [hy, hm, hk]

/-- Adding months reaches a day by an earlier month, or in its month by a day
not after it. -/
theorem addMonths_le_iff {s d : Date} {n : Int} :
    s.addMonths n ≤ d ↔ s.monthIndex + n < d.monthIndex ∨
      s.monthIndex + n = d.monthIndex ∧ min s.day (daysInMonth d.year d.month) ≤ d.day := by
  obtain ⟨hindex, hday⟩ := addMonths_spec s n
  rcases lt_trichotomy (s.monthIndex + n) d.monthIndex with hlt | heq | hgt
  · have := lt_of_monthIndex_lt (hindex.trans_lt hlt)
    exact ⟨fun _ => Or.inl hlt, fun _ => le_of_lt this⟩
  · have hmonth : (s.addMonths n).monthIndex = d.monthIndex := hindex.trans heq
    have hyears : (s.addMonths n).year = d.year ∧ (s.addMonths n).month = d.month := by
      obtain ⟨h₁, h₂, -, -⟩ := month_bounds (s.addMonths n)
      obtain ⟨h₃, h₄, -, -⟩ := month_bounds d
      unfold Date.monthIndex at hmonth
      omega
    rw [hyears.1, hyears.2] at hday
    rw [le_iff_day_le hmonth, hday]
    omega
  · have := lt_of_monthIndex_lt (hgt.trans_eq hindex.symm)
    exact ⟨fun hle => absurd hle (not_le.mpr this), by omega⟩

/-- A later day stays later, or falls together with the earlier one. -/
theorem addMonths_mono {s t : Date} (h : s ≤ t) (n : Int) : s.addMonths n ≤ t.addMonths n := by
  obtain ⟨hindex, hday⟩ := addMonths_spec t n
  have hle := monthIndex_mono h
  refine addMonths_le_iff.mpr ?_
  rw [hindex, hday]
  rcases lt_or_eq_of_le hle with hlt | heq
  · exact Or.inl (by omega)
  · have := (le_iff_day_le heq).mp h
    exact Or.inr ⟨by omega, by omega⟩

end Gregorian
